import ActionLog.Pass.Hoist
import ActionLog.Proofs.Declaration

/-!
# Hoisted declarations and the order of their uses

Hoisting puts declarations into alphabetical order, whatever they refer to.

* `lineLe_trans`, `lineLe_total`, `lineLe_antisymm` — the alphabetical order of lines is linear;
* `hoisted` — the declarations of a text in that order; `hoisted_increasing` says that each stands
  before the greater ones only;
* `lines_hoist` — the lines of a hoisted text: its declarations, and behind them no other;
* `DefinedFirst` — every declared name that a declaration refers to is declared on an earlier line;
* `definedFirst_of_alphabetical`, `alphabetical_of_definedFirst` — what that comes to for a hoisted
  text.

Principal results: `hoist_definedFirst_iff` and `hoist_moves_use`.
-/

set_option autoImplicit false

namespace ActionLog.Pass

open Declaration (isDeclaration nameOf valueOf declarationLines WellFormed)

/-! ## The order of lines -/

section Order

variable {a b c : Text}

/-- Lines are compared in lower case, and as they are where that does not tell them apart. -/
theorem lineLe_iff : lineLe a b = true ↔
    (Text.toLower a = Text.toLower b ∧ a ≤ b) ∨
      (Text.toLower a ≠ Text.toLower b ∧ Text.toLower a ≤ Text.toLower b) := by
  unfold lineLe Text.le
  by_cases h : Text.toLower a = Text.toLower b <;> simp [h]

theorem lineLe_trans (hab : lineLe a b = true) (hbc : lineLe b c = true) : lineLe a c = true := by
  rw [lineLe_iff] at hab hbc ⊢
  rcases hab with ⟨hab, hle⟩ | ⟨hab, hle⟩
  · rw [hab]
    exact hbc.imp_left fun h => ⟨h.1, List.le_trans hle h.2⟩
  · rcases hbc with ⟨hbc, _⟩ | ⟨hbc, hle'⟩
    · rw [← hbc]
      exact .inr ⟨hab, hle⟩
    · refine .inr ⟨fun hac => ?_, List.le_trans hle hle'⟩
      rw [← hac] at hle'
      exact hab (List.le_antisymm hle hle')

theorem lineLe_total (a b : Text) : (lineLe a b || lineLe b a) = true := by
  rw [Bool.or_eq_true, lineLe_iff, lineLe_iff]
  by_cases h : Text.toLower a = Text.toLower b
  · exact (List.le_total a b).imp (fun hle => .inl ⟨h, hle⟩) fun hle => .inl ⟨h.symm, hle⟩
  · exact (List.le_total (Text.toLower a) (Text.toLower b)).imp (fun hle => .inr ⟨h, hle⟩)
      fun hle => .inr ⟨Ne.symm h, hle⟩

theorem lineLe_antisymm (hab : lineLe a b = true) (hba : lineLe b a = true) : a = b := by
  rw [lineLe_iff] at hab hba
  rcases hab with ⟨heq, hle⟩ | ⟨hne, hle⟩
  · rcases hba with ⟨_, hle'⟩ | ⟨hne, _⟩
    · exact List.le_antisymm hle hle'
    · exact absurd heq.symm hne
  · rcases hba with ⟨heq, _⟩ | ⟨_, hle'⟩
    · exact absurd heq.symm hne
    · exact absurd (List.le_antisymm hle hle') hne

end Order

/-! ## The lines of a hoisted text -/

/-- The declarations of a text, each once and in alphabetical order. -/
def hoisted (s : Text) : List Text := (declarationLines s).eraseDups.mergeSort lineLe

theorem mem_hoisted {s l : Text} : l ∈ hoisted s ↔ l ∈ declarationLines s := by
  unfold hoisted
  rw [List.mem_mergeSort, List.mem_eraseDups]

theorem nodup_eraseDups : ∀ ls : List Text, ls.eraseDups.Nodup
  | [] => by simp
  | l :: ls => by
    have hlen : (ls.filter fun b => !b == l).length < (l :: ls).length :=
      Nat.lt_succ_of_le (List.length_filter_le _ _)
    rw [List.eraseDups_cons, List.nodup_cons, List.mem_eraseDups]
    exact ⟨by simp, nodup_eraseDups (ls.filter fun b => !b == l)⟩
termination_by ls => ls.length
decreasing_by exact hlen

/-- **Hoisted declarations increase strictly.** -/
theorem hoisted_increasing (s : Text) :
    (hoisted s).Pairwise fun a b => lineLe a b = true ∧ a ≠ b := by
  have hsorted : (hoisted s).Pairwise fun a b => lineLe a b = true := by
    unfold hoisted
    apply List.pairwise_mergeSort
    · exact fun _ _ _ => lineLe_trans
    · exact lineLe_total
  have hnodup : (hoisted s).Nodup :=
    (List.mergeSort_perm _ lineLe).nodup_iff.mpr (nodup_eraseDups _)
  exact hsorted.and hnodup

/-- What stands behind the declarations of a hoisted text. -/
def remainder (s : Text) : Text :=
  Text.trimNewlines (Text.unlines ((Text.lines s).filter fun l => !isDeclaration l))

theorem hoist_of_none {s : Text} (h : declarationLines s = []) : hoist s = s := by
  unfold declarationLines at h
  simp [hoist, h]

theorem hoist_of_some {s : Text} (h : declarationLines s ≠ []) :
    hoist s = Text.unlines (hoisted s) ++
      if remainder s = [] then [] else Byte.newline :: Byte.newline :: remainder s := by
  have hne : (declarationLines s).eraseDups ≠ [] := by
    obtain ⟨l, hl⟩ := List.exists_mem_of_ne_nil _ h
    exact List.ne_nil_of_mem (List.mem_eraseDups.mpr hl)
  have htwo : utf8 "\n\n" = [Byte.newline, Byte.newline] := by decide +kernel
  unfold hoist
  dsimp only
  split
  · rename_i hnil
    exact absurd hnil hne
  · rw [htwo]
    by_cases hrest : remainder s = []
    · unfold remainder at hrest
      simp [hrest, hoisted, remainder, declarationLines]
    · unfold remainder at hrest
      simp [hrest, hoisted, remainder, declarationLines]

/-- A line behind the declarations is a line of the text, or empty. -/
theorem mem_lines_remainder {s l : Text} (hl : l ∈ Text.lines (remainder s)) :
    l = [] ∨ (l ∈ Text.lines s ∧ isDeclaration l = false) := by
  by_cases hnil : ((Text.lines s).filter fun l => !isDeclaration l) = []
  · unfold remainder at hl
    rw [hnil] at hl
    exact .inl (List.mem_singleton.mp hl)
  · obtain ⟨i, j, heq⟩ := Text.lines_trimNewlines
      (Text.unlines ((Text.lines s).filter fun l => !isDeclaration l))
    rw [Text.lines_unlines (fun l hl => Text.newline_not_mem (List.mem_filter.mp hl).1) hnil] at heq
    have hmem : l ∈ (Text.lines s).filter fun l => !isDeclaration l := by
      rw [heq]
      exact List.mem_append_left _ (List.mem_append_right _ hl)
    obtain ⟨hline, hdecl⟩ := List.mem_filter.mp hmem
    exact .inr ⟨hline, by simpa using hdecl⟩

theorem hoisted_ne_nil {s : Text} (h : declarationLines s ≠ []) : hoisted s ≠ [] := by
  obtain ⟨l, hl⟩ := List.exists_mem_of_ne_nil _ h
  exact List.ne_nil_of_mem (mem_hoisted.mpr hl)

theorem lines_hoist_of_some {s : Text} (h : declarationLines s ≠ []) :
    Text.lines (hoist s) =
      hoisted s ++ if remainder s = [] then [] else [] :: Text.lines (remainder s) := by
  have hlines : Text.lines (Text.unlines (hoisted s)) = hoisted s :=
    Text.lines_unlines (fun l hl => Text.newline_not_mem
      (List.mem_filter.mp (mem_hoisted.mp hl)).1) (hoisted_ne_nil h)
  rw [hoist_of_some h]
  by_cases hrest : remainder s = []
  · simp [hrest, hlines]
  · rw [if_neg hrest, if_neg hrest, Text.lines_append_newline, hlines]
    rfl

/-- **The lines of a hoisted text**: its declarations in order, and others behind them. -/
theorem lines_hoist (s : Text) :
    ∃ rest, Text.lines (hoist s) = hoisted s ++ rest ∧
      ∀ l ∈ rest, isDeclaration l = false ∧ (l = [] ∨ l ∈ Text.lines s) := by
  by_cases hnone : declarationLines s = []
  · refine ⟨Text.lines s, ?_, fun l hl => ⟨?_, .inr hl⟩⟩
    · rw [hoist_of_none hnone, hoisted, hnone]
      simp
    · by_contra hdecl
      have hmem : l ∈ declarationLines s := List.mem_filter.mpr ⟨hl, by simpa using hdecl⟩
      rw [hnone] at hmem
      cases hmem
  · refine ⟨_, lines_hoist_of_some hnone, fun l hl => ?_⟩
    split at hl
    · cases hl
    · rcases List.mem_cons.mp hl with rfl | hl
      · exact ⟨rfl, .inl rfl⟩
      · rcases mem_lines_remainder hl with rfl | ⟨hmem, hdecl⟩
        · exact ⟨rfl, .inl rfl⟩
        · exact ⟨hdecl, .inr hmem⟩

/-- The declarations of a hoisted text are those of the text, in order. -/
theorem declarationLines_hoist (s : Text) : declarationLines (hoist s) = hoisted s := by
  obtain ⟨rest, hlines, hrest⟩ := lines_hoist s
  unfold declarationLines
  rw [hlines, List.filter_append]
  have hall : ∀ l ∈ hoisted s, isDeclaration l = true :=
    fun l hl => (List.mem_filter.mp (mem_hoisted.mp hl)).2
  have hnone : rest.filter isDeclaration = [] := by
    rw [List.filter_eq_nil_iff]
    intro l hl
    simp [(hrest l hl).1]
  rw [List.filter_eq_self.mpr hall, hnone, List.append_nil]

/-- Hoisting makes no declaration malformed. -/
theorem wellFormed_hoist {s : Text} (h : WellFormed (Text.lines s)) :
    WellFormed (Text.lines (hoist s)) := by
  intro l hl
  obtain ⟨rest, hlines, hrest⟩ := lines_hoist s
  rw [hlines] at hl
  rcases List.mem_append.mp hl with hl | hl
  · exact h l (List.mem_filter.mp (mem_hoisted.mp hl)).1
  · obtain ⟨hdecl, rfl | hmem⟩ := hrest l hl
    · exact ⟨List.not_mem_nil, fun hempty => by cases hempty⟩
    · exact h l hmem

/-! ## Definitions and their uses -/

/-- The names that lines declare, in order. -/
def declaredNames (ls : List Text) : List Text := (ls.filter isDeclaration).map nameOf

/-- Every declared name that the value of a declaration refers to is declared on an earlier line. -/
def DefinedFirst (ls : List Text) : Prop :=
  ∀ i, ∀ _ : i < ls.length, isDeclaration ls[i] = true →
    ∀ n ∈ declaredNames ls, Text.hasWord n (valueOf ls[i]) = true → n ∈ declaredNames (ls.take i)

instance (ls : List Text) : Decidable (DefinedFirst ls) :=
  inferInstanceAs (Decidable (∀ i, ∀ _ : i < ls.length, _ → _))

/-- Of every declared name that the value of a declaration refers to, some declaration comes before
it in the alphabet. -/
def Alphabetical (s : Text) : Prop :=
  ∀ l ∈ declarationLines s, ∀ n ∈ declaredNames (Text.lines s), Text.hasWord n (valueOf l) = true →
    ∃ l' ∈ declarationLines s, nameOf l' = n ∧ lineLe l' l = true ∧ l' ≠ l

theorem mem_declaredNames {ls : List Text} {n : Text} :
    n ∈ declaredNames ls ↔ ∃ l ∈ ls, isDeclaration l = true ∧ nameOf l = n := by
  simp [declaredNames, and_assoc]

theorem mem_declaredNames_hoist {s n : Text} :
    n ∈ declaredNames (Text.lines (hoist s)) ↔ n ∈ declaredNames (Text.lines s) := by
  have hlines := declarationLines_hoist s
  unfold declarationLines at hlines
  unfold declaredNames
  rw [hlines, List.mem_map, List.mem_map]
  simp only [mem_hoisted, declarationLines]

section Hoisted

variable {s : Text}

theorem definedFirst_of_alphabetical (h : Alphabetical s) : DefinedFirst (Text.lines (hoist s)) := by
  intro i hi hdecl n hn hword
  obtain ⟨rest, hlines, hrest⟩ := lines_hoist s
  -- behind the declarations there is none
  have hlt : i < (hoisted s).length := by
    by_contra hge
    have hmem : (Text.lines (hoist s))[i] ∈ rest := by
      simp only [hlines]
      rw [List.getElem_append_right (by omega)]
      exact List.getElem_mem _
    rw [(hrest _ hmem).1] at hdecl
    cases hdecl
  have hget : (Text.lines (hoist s))[i] = (hoisted s)[i] := by
    simp only [hlines]
    exact List.getElem_append_left hlt
  rw [hget] at hword
  obtain ⟨l', hl', hname, hle, hne⟩ := h _ (mem_hoisted.mp (List.getElem_mem hlt)) n
    (mem_declaredNames_hoist.mp hn) hword
  obtain ⟨j, hj, rfl⟩ := List.mem_iff_getElem.mp (mem_hoisted.mpr hl')
  have hincreasing := List.pairwise_iff_getElem.mp (hoisted_increasing s)
  have hji : j < i := by
    rcases Nat.lt_trichotomy j i with hlt' | heq | hgt
    · exact hlt'
    · subst heq
      exact absurd rfl hne
    · exact absurd (lineLe_antisymm hle (hincreasing i j hlt hj hgt).1) hne
  rw [mem_declaredNames, hlines]
  refine ⟨(hoisted s)[j], ?_, (List.mem_filter.mp hl').2, hname⟩
  rw [List.take_append_of_le_length (by omega), List.mem_take_iff_getElem]
  exact ⟨j, by omega, rfl⟩

theorem alphabetical_of_definedFirst (h : DefinedFirst (Text.lines (hoist s))) : Alphabetical s := by
  intro l hl n hn hword
  obtain ⟨rest, hlines, _⟩ := lines_hoist s
  obtain ⟨i, hi, rfl⟩ := List.mem_iff_getElem.mp (mem_hoisted.mpr hl)
  have hi' : i < (Text.lines (hoist s)).length := by
    rw [hlines, List.length_append]
    omega
  have hget : (Text.lines (hoist s))[i] = (hoisted s)[i] := by
    simp only [hlines]
    exact List.getElem_append_left hi
  have hearlier := h i hi' (by rw [hget]; exact (List.mem_filter.mp hl).2) n
    (mem_declaredNames_hoist.mpr hn) (by rw [hget]; exact hword)
  rw [hlines, List.take_append_of_le_length (by omega), mem_declaredNames] at hearlier
  obtain ⟨l', hl', _, hname⟩ := hearlier
  obtain ⟨j, hj, rfl⟩ := List.mem_take_iff_getElem.mp hl'
  have hincreasing := List.pairwise_iff_getElem.mp (hoisted_increasing s) j i (by omega) hi (by omega)
  exact ⟨_, mem_hoisted.mp (List.getElem_mem _), hname, hincreasing⟩

end Hoisted

/-- **A hoisted text declares names before they are referred to exactly if the alphabet does.**
Whatever the order of its declarations was, in the hoisted text every declared name that the value of
a declaration refers to is declared on an earlier line if and only if for each such name some
declaration of it comes before in the alphabet. -/
theorem hoist_definedFirst_iff (s : Text) : DefinedFirst (Text.lines (hoist s)) ↔ Alphabetical s :=
  ⟨alphabetical_of_definedFirst, definedFirst_of_alphabetical⟩

/-- **Hoisting moves a declaration before one that it refers to**, where its name comes first in the
alphabet. -/
theorem hoist_moves_use :
    ¬ ∀ s : Text, DefinedFirst (Text.lines s) → DefinedFirst (Text.lines (hoist s)) := by
  intro h
  have halphabet := alphabetical_of_definedFirst
    (h (utf8 "var b = 1;\nvar a = b;") (by decide +kernel))
  obtain ⟨l', hl', hname, hle, hne⟩ := halphabet (utf8 "var a = b;") (by decide +kernel) (utf8 "b")
    (by decide +kernel) (by decide +kernel)
  have hnone : ∀ l ∈ declarationLines (utf8 "var b = 1;\nvar a = b;"), nameOf l = utf8 "b" →
      lineLe l (utf8 "var a = b;") = false := by
    decide +kernel
  rw [hnone l' hl' hname] at hle
  cases hle

end ActionLog.Pass
