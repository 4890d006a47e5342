import ActionLog.Proofs.Hoist
import Mathlib.Data.List.Perm.Basic

/-!
# The arrangement of a hoisted text

A hoisted text is a normal form.  Its declarations are a set, listed in alphabetical order; what
else the text holds is a sequence of lines, kept but for the empty ones at its ends.  Nothing is
left of how the two were mixed.

* `Precedes` — alphabetical order, strictly: by lower case first, then by bytes;
* `otherLines` — the lines that declare nothing;
* `Text.Inner` — lines without the empty ones at both ends;
* `hoisted_congr` — the hoisted declarations depend on their set alone;
* `remainder_hoist` — hoisting again finds the same remainder behind the blank line that it put in.

Principal result: `hoist_canonical`.
-/

set_option autoImplicit false

namespace ActionLog

namespace Text

/-- The lines without the empty ones at both ends. -/
structure Inner (ls inner : List Text) : Prop where
  frame : ∃ i j, ls = List.replicate i [] ++ inner ++ List.replicate j []
  front : inner.head? ≠ some []
  back : inner.getLast? ≠ some []

/-- A text whose first line is empty is empty or starts with a newline. -/
theorem head_of_lines {s : Text} (h : (lines s).head? = some []) :
    s = [] ∨ s.head? = some Byte.newline := by
  obtain ⟨ls, hls⟩ := List.head?_eq_some_iff.mp h
  rw [← unlines_lines s, hls]
  cases ls with
  | nil => exact .inl rfl
  | cons l ls => exact .inr (by rw [unlines_cons_cons]; rfl)

theorem last_of_lines {s : Text} (h : (lines s).getLast? = some []) :
    s = [] ∨ s.getLast? = some Byte.newline := by
  obtain ⟨ls, hls⟩ := List.getLast?_eq_some_iff.mp h
  cases ls with
  | nil =>
    rw [← unlines_lines s, hls]
    exact .inl rfl
  | cons l ls =>
    have hs : s = unlines (l :: ls) ++ [Byte.newline] := by
      have hread := lines_append_newline (unlines (l :: ls)) []
      have hkept : ∀ l' ∈ l :: ls, Byte.newline ∉ l' := fun l' hl' =>
        newline_not_mem (s := s) (by rw [hls]; exact List.mem_append_left _ hl')
      rw [lines_unlines hkept (List.cons_ne_nil l ls)] at hread
      rw [← unlines_lines s, hls, ← unlines_lines (unlines (l :: ls) ++ [Byte.newline]), hread]
      rfl
    rw [hs]
    exact .inr (by simp)

/-- **Newlines taken away at the ends of a text are the empty lines at its ends.** -/
theorem inner_lines_trimNewlines (s : Text) :
    Inner (lines s) (if trimNewlines s = [] then [] else lines (trimNewlines s)) := by
  obtain ⟨i, j, hlines⟩ := lines_trimNewlines s
  obtain ⟨hfront, hback⟩ := trimBy_ends (· == Byte.newline) s
  by_cases hempty : trimNewlines s = []
  · rw [if_pos hempty]
    refine ⟨⟨i + 1, j, ?_⟩, by simp, by simp⟩
    rw [hempty] at hlines
    rw [hlines, List.replicate_succ', List.append_nil]
    rfl
  · rw [if_neg hempty]
    refine ⟨⟨i, j, hlines⟩, fun hhead => ?_, fun hlast => ?_⟩
    · rcases head_of_lines hhead with hnil | hnewline
      · exact hempty hnil
      · unfold trimNewlines at hnewline
        simp [hnewline] at hfront
    · rcases last_of_lines hlast with hnil | hnewline
      · exact hempty hnil
      · unfold trimNewlines at hnewline
        simp [hnewline] at hback

end Text

namespace Pass

open Declaration (isDeclaration declarationLines)

/-- Strict alphabetical order of lines: by lower case, and by bytes where that does not tell them
apart. -/
def Precedes (a b : Text) : Prop :=
  Text.toLower a < Text.toLower b ∨ (Text.toLower a = Text.toLower b ∧ a < b)

/-- The lines of a text that declare nothing. -/
def otherLines (s : Text) : List Text := (Text.lines s).filter fun l => !isDeclaration l

theorem precedes_of_lineLe {a b : Text} (hle : lineLe a b = true) (hne : a ≠ b) : Precedes a b := by
  rcases lineLe_iff.mp hle with ⟨heq, hle⟩ | ⟨hlower, hle⟩
  · exact .inr ⟨heq, Std.lt_of_le_of_ne hle hne⟩
  · exact .inl (Std.lt_of_le_of_ne hle hlower)

section Hoisting

variable {s t : Text}

/-- **Hoisted declarations depend on the set of declarations alone.** -/
theorem hoisted_congr (h : ∀ l, l ∈ declarationLines s ↔ l ∈ declarationLines t) :
    hoisted s = hoisted t := by
  have hs := hoisted_increasing s
  have ht := hoisted_increasing t
  have hperm : (hoisted s).Perm (hoisted t) := by
    refine (List.perm_ext_iff_of_nodup ?_ ?_).mpr fun l => ?_
    · exact hs.imp fun h => h.2
    · exact ht.imp fun h => h.2
    · rw [mem_hoisted, mem_hoisted, h l]
  refine List.Perm.eq_of_pairwise (fun a b _ _ => ?_) hs ht hperm
  exact fun hab hba => lineLe_antisymm hab.1 hba.1

/-- The lines behind the declarations are those of the text, but for empty ones at their ends. -/
theorem inner_remainder (s : Text) :
    Text.Inner (otherLines s) (if remainder s = [] then [] else Text.lines (remainder s)) := by
  by_cases hnil : otherLines s = []
  · have hrest : remainder s = [] := by
      show Text.trimNewlines (Text.unlines (otherLines s)) = []
      rw [hnil]
      rfl
    rw [hnil, if_pos hrest]
    exact ⟨⟨0, 0, rfl⟩, by simp, by simp⟩
  · have hlines : Text.lines (Text.unlines (otherLines s)) = otherLines s :=
      Text.lines_unlines (fun l hl => Text.newline_not_mem (List.mem_filter.mp hl).1) hnil
    have hinner := Text.inner_lines_trimNewlines (Text.unlines (otherLines s))
    rwa [hlines] at hinner

theorem unlines_hoist (h : declarationLines s ≠ []) : hoist s = Text.unlines
    (hoisted s ++ if remainder s = [] then [] else [] :: Text.lines (remainder s)) := by
  rw [← lines_hoist_of_some h, Text.unlines_lines]

/-- The lines of a hoisted text that declare nothing. -/
theorem otherLines_hoist (h : declarationLines s ≠ []) : otherLines (hoist s) =
    if remainder s = [] then [] else [] :: Text.lines (remainder s) := by
  have hdeclared : (hoisted s).filter (fun l => !isDeclaration l) = [] := by
    rw [List.filter_eq_nil_iff]
    intro l hl
    simp [(List.mem_filter.mp (mem_hoisted.mp hl)).2]
  obtain ⟨rest, hlines, hrest⟩ := lines_hoist s
  have hkept : rest.filter (fun l => !isDeclaration l) = rest := by
    rw [List.filter_eq_self]
    intro l hl
    simp [(hrest l hl).1]
  have hsame := lines_hoist_of_some h
  rw [hlines] at hsame
  unfold otherLines
  rw [hlines, List.filter_append, hdeclared, hkept, List.nil_append]
  exact List.append_cancel_left hsame

/-- **Hoisting again finds the same remainder**: the blank line before it goes with the newlines at
its ends, of which it has none. -/
theorem remainder_hoist (h : declarationLines s ≠ []) : remainder (hoist s) = remainder s := by
  have hidem : Text.trimNewlines (remainder s) = remainder s := Text.trimNewlines_trimNewlines _
  show Text.trimNewlines (Text.unlines (otherLines (hoist s))) = remainder s
  rw [otherLines_hoist h]
  by_cases hrest : remainder s = []
  · rw [if_pos hrest, hrest]
    rfl
  · obtain ⟨l, ls, hl⟩ := List.exists_cons_of_ne_nil (Text.lines_ne_nil (remainder s))
    have hfront : Text.unlines ([] :: Text.lines (remainder s)) =
        List.replicate 1 Byte.newline ++ remainder s ++ List.replicate 0 Byte.newline := by
      conv_rhs => rw [← Text.unlines_lines (remainder s)]
      rw [hl, Text.unlines_cons_cons]
      simp
    rw [if_neg hrest, hfront, Text.trimNewlines_replicate, hidem]

theorem hoist_congr (hset : ∀ l, l ∈ declarationLines s ↔ l ∈ declarationLines t)
    (hnone : declarationLines s ≠ []) (hrest : remainder s = remainder t) : hoist s = hoist t := by
  have hnone' : declarationLines t ≠ [] := by
    obtain ⟨l, hl⟩ := List.exists_mem_of_ne_nil _ hnone
    exact List.ne_nil_of_mem ((hset l).mp hl)
  rw [hoist_of_some hnone, hoist_of_some hnone', hoisted_congr hset, hrest]

/-- A text without declarations is the sequence of its other lines. -/
theorem unlines_otherLines (h : declarationLines s = []) : Text.unlines (otherLines s) = s := by
  have hall : otherLines s = Text.lines s := by
    unfold otherLines
    rw [List.filter_eq_self]
    intro l hl
    have hnot := List.filter_eq_nil_iff.mp h l hl
    simpa using hnot
  rw [hall, Text.unlines_lines]

end Hoisting

/-- **Hoisting is canonical and idempotent.**  A hoisted text with declarations starts with them,
each once and in strict alphabetical order.  Behind them come, after a blank line and if any of them
is not empty, the other lines in their order, without the empty ones at both ends.  Two texts with
the same set of declarations and the same sequence of other lines are hoisted alike, and a hoisted
text is hoisted already. -/
theorem hoist_canonical (s : Text) :
    (declarationLines s ≠ [] → ∃ declared inner,
      declared.Pairwise Precedes ∧ (∀ l, l ∈ declared ↔ l ∈ declarationLines s) ∧
      Text.Inner (otherLines s) inner ∧
      hoist s = Text.unlines (declared ++ if inner = [] then [] else [] :: inner)) ∧
    (∀ t, (∀ l, l ∈ declarationLines s ↔ l ∈ declarationLines t) → otherLines s = otherLines t →
      hoist s = hoist t) ∧
    hoist (hoist s) = hoist s := by
  refine ⟨fun h => ?_, fun t hset hother => ?_, ?_⟩
  · refine ⟨hoisted s, if remainder s = [] then [] else Text.lines (remainder s), ?_,
      fun l => mem_hoisted, inner_remainder s, ?_⟩
    · exact (hoisted_increasing s).imp fun h => precedes_of_lineLe h.1 h.2
    · rw [unlines_hoist h]
      by_cases hrest : remainder s = []
      · simp [hrest]
      · simp [hrest, Text.lines_ne_nil]
  · by_cases hnone : declarationLines s = []
    · have hnone' : declarationLines t = [] := by
        apply List.eq_nil_iff_forall_not_mem.mpr
        intro l hl
        rw [← hset l, hnone] at hl
        cases hl
      rw [hoist_of_none hnone, hoist_of_none hnone', ← unlines_otherLines hnone, hother,
        unlines_otherLines hnone']
    · refine hoist_congr hset hnone ?_
      show Text.trimNewlines (Text.unlines (otherLines s)) = _
      rw [hother]
      rfl
  · by_cases hnone : declarationLines s = []
    · rw [hoist_of_none hnone, hoist_of_none hnone]
    · refine (hoist_congr (fun l => ?_) hnone (remainder_hoist hnone).symm).symm
      rw [declarationLines_hoist, mem_hoisted]

/-- Declarations that differ in case only, one of them twice, between other lines and blank ones. -/
def mixed : Text := utf8 "\nf();\nvar b = 1;\nvar B = 1;\n\nvar b = 1;\ng();\n"

def arranged : Text := utf8 "var B = 1;\nvar b = 1;\n\nf();\n\ng();"

theorem hoist_canonical_mixed :
    declarationLines mixed ≠ [] ∧ otherLines mixed = otherLines (arranged ++ [Byte.newline]) ∧
    (∃ declared inner, declared.Pairwise Precedes ∧
      (∀ l, l ∈ declared ↔ l ∈ declarationLines mixed) ∧ Text.Inner (otherLines mixed) inner ∧
      hoist mixed = Text.unlines (declared ++ if inner = [] then [] else [] :: inner)) ∧
    hoist mixed = arranged ∧ hoist (hoist mixed) = hoist mixed := by
  have hnone : declarationLines mixed ≠ [] := by decide +kernel
  have hother : otherLines mixed = otherLines (arranged ++ [Byte.newline]) := by decide +kernel
  have hset : ∀ l, l ∈ declarationLines mixed ↔
      l ∈ declarationLines (arranged ++ [Byte.newline]) := by
    have hmixed : declarationLines mixed =
        [utf8 "var b = 1;", utf8 "var B = 1;", utf8 "var b = 1;"] := by decide +kernel
    have harranged : declarationLines (arranged ++ [Byte.newline]) =
        [utf8 "var B = 1;", utf8 "var b = 1;"] := by decide +kernel
    intro l
    rw [hmixed, harranged]
    simp only [List.mem_cons, List.not_mem_nil, or_false]
    tauto
  obtain ⟨hform, hsame, hidem⟩ := hoist_canonical mixed
  refine ⟨hnone, hother, hform hnone, ?_, hidem⟩
  have hsorted : hoisted (arranged ++ [Byte.newline]) =
      (declarationLines (arranged ++ [Byte.newline])).eraseDups :=
    List.mergeSort_of_pairwise (by decide +kernel)
  rw [hsame _ hset hother, hoist_of_some (by decide +kernel), hsorted]
  decide +kernel

end Pass

end ActionLog
