import ActionLog.Proofs.Search
import ActionLog.Proofs.Trim
import Mathlib.Data.List.Infix

/-!
# Occurrences of a fixed text

* `includes_iff`, `cut_eq_none` — the searches for a fixed text look for its occurrences;
* `cut_first` — a cut is made at the first occurrence; `splitOn_first` and `splitOn_single` take a
  text apart so;
* `not_infix_splitOn`, `flatten_splitOn` — what lies between the occurrences holds none of them, and is
  all that is left of the text;
* `infix_newline` — a text that ends with its only newline occurs on one side of a newline, or ends
  there;
* `unixLines_eq_self`, `count_unixLines` — carriage returns before newlines are left out, and each time
  there is one there are fewer of them.
-/

set_option autoImplicit false

namespace ActionLog.Text

variable {pat s : Text}

/-! ## First occurrences -/

theorem includes_iff : includes pat s = true ↔ pat <:+: s := by
  induction s with
  | nil => simp [includes]
  | cons b s ih =>
    rw [includes, Bool.or_eq_true, ih, List.isPrefixOf_iff_prefix, List.infix_cons_iff]

theorem cut_eq_none : cut pat s = none ↔ ¬ pat <:+: s := by
  induction s with
  | nil => simp [cut]
  | cons b s ih =>
    rw [List.infix_cons_iff, not_or, ← ih, ← List.isPrefixOf_iff_prefix]
    simp only [cut]
    split
    · rename_i hpre
      simp [hpre]
    · rename_i hpre
      simp [hpre]

/-- What stands before the first occurrence holds no other one. -/
theorem not_infix_of_cut {l r : Text} (hne : pat ≠ []) (h : cut pat s = some (l, r)) :
    ¬ pat <:+: l := by
  induction s generalizing l with
  | nil =>
    rw [cut, if_neg (by simpa using hne)] at h
    cases h
  | cons b s ih =>
    simp only [cut] at h
    split at h
    · cases h
      simpa using hne
    · rename_i hpre
      obtain ⟨⟨l', r'⟩, hcut, heq⟩ := Option.map_eq_some_iff.mp h
      cases heq
      rw [List.infix_cons_iff, not_or]
      refine ⟨?_, ih hcut⟩
      intro hl
      apply hpre
      rw [List.isPrefixOf_iff_prefix, cut_eq_some hcut, List.append_assoc, ← List.cons_append]
      exact hl.trans (List.prefix_append _ _)

theorem ne_nil_of_not_isInfix (h : ¬ pat <:+: s) : pat ≠ [] := by
  rintro rfl
  exact h List.nil_infix

/-- **A cut is made at the first occurrence.**  An earlier one would end before the last byte of
this one. -/
theorem cut_first {l : Text} (h : ¬ pat <:+: l ++ pat.dropLast) (r : Text) :
    cut pat (l ++ pat ++ r) = some (l, r) := by
  have hne := ne_nil_of_not_isInfix h
  induction l with
  | nil =>
    obtain ⟨b, pat', rfl⟩ := List.exists_cons_of_ne_nil hne
    rw [List.nil_append, List.cons_append, cut, ← List.cons_append, if_pos]
    · rw [List.drop_left]
    · rw [List.isPrefixOf_iff_prefix]
      exact List.prefix_append _ r
  | cons b l ih =>
    rw [List.cons_append, List.infix_cons_iff, not_or] at h
    have hpre : ¬ pat <+: b :: (l ++ pat ++ r) := by
      intro hpre
      apply h.1
      have hlast : b :: (l ++ pat.dropLast) <+: b :: (l ++ pat ++ r) := by
        rw [List.append_assoc]
        refine (List.prefix_append_right_inj (b :: l)).mpr ?_
        exact (List.dropLast_prefix pat).trans (List.prefix_append pat r)
      refine List.prefix_of_prefix_length_le hpre hlast ?_
      have hpos := List.length_pos_iff.mpr hne
      simp only [List.length_cons, List.length_append, List.length_dropLast]
      omega
    rw [List.cons_append, List.cons_append, cut, if_neg (by rwa [List.isPrefixOf_iff_prefix]), ih h.2]
    rfl

/-! ## Texts taken apart -/

theorem splitOn_eq (hne : pat ≠ []) (s : Text) : splitOn pat s = match cut pat s with
    | none => [s]
    | some (l, r) => l :: splitOn pat r := by
  rw [splitOn, dif_neg hne]
  split
  · rename_i hcut
    rw [hcut]
  · rename_i l r hcut
    rw [hcut]

theorem splitOn_single (h : ¬ pat <:+: s) : splitOn pat s = [s] := by
  rw [splitOn_eq (ne_nil_of_not_isInfix h), cut_eq_none.mpr h]

theorem splitOn_first {l : Text} (h : ¬ pat <:+: l ++ pat.dropLast) (r : Text) :
    splitOn pat (l ++ pat ++ r) = l :: splitOn pat r := by
  rw [splitOn_eq (ne_nil_of_not_isInfix h), cut_first h]

/-- **Between two occurrences there is no other.** -/
theorem not_infix_splitOn (hne : pat ≠ []) {t : Text} (ht : t ∈ splitOn pat s) : ¬ pat <:+: t := by
  induction s using cut_induction hne with
  | last s hs =>
    rw [splitOn_eq hne, hs] at ht
    rw [List.mem_singleton.mp ht]
    exact cut_eq_none.mp hs
  | next s l r hs ih =>
    rw [splitOn_eq hne, hs] at ht
    rcases List.mem_cons.mp ht with rfl | ht
    · exact not_infix_of_cut hne hs
    · exact ih ht

theorem flatten_splitOn (hne : pat ≠ []) (s : Text) : ((splitOn pat s).flatten).Sublist s := by
  induction s using cut_induction hne with
  | last s hs =>
    rw [splitOn_eq hne, hs]
    simp
  | next s l r hs ih =>
    rw [splitOn_eq hne, hs, cut_eq_some hs]
    simp only [List.flatten_cons, List.append_assoc]
    exact (List.append_sublist_append_left l).mpr (ih.trans (List.sublist_append_right pat r))

/-! ## Texts that end with a newline -/

/-- **Where a text with one newline, at its end, can occur**: on one side of a newline, or up to
it. -/
theorem infix_newline {mark : Text} (hmark : Byte.newline ∉ mark) (u v : Text) :
    mark ++ [Byte.newline] <:+: u ++ Byte.newline :: v ↔
      mark ++ [Byte.newline] <:+: u ∨ mark <:+ u ∨ mark ++ [Byte.newline] <:+: v := by
  constructor
  · intro h
    rcases List.infix_append_iff.mp h with hu | hv | ⟨l₁, l₂, heq, hl₁, hl₂⟩
    · exact .inl hu
    · rcases List.infix_cons_iff.mp hv with hpre | hv
      · cases mark with
        | nil => exact .inr (.inl List.nil_suffix)
        | cons b mark =>
          obtain ⟨rfl, _⟩ := List.cons_prefix_cons.mp hpre
          exact absurd List.mem_cons_self hmark
      · exact .inr (.inr hv)
    · cases l₂ with
      | nil =>
        rw [List.append_nil] at heq
        rw [heq]
        exact .inl hl₁.isInfix
      | cons b l₂ =>
        obtain ⟨rfl, _⟩ := List.cons_prefix_cons.mp hl₂
        -- the newline that both start with is the only one of the text
        rcases List.append_eq_append_iff.mp heq with ⟨w, rfl, hw⟩ | ⟨w, rfl, hw⟩
        · cases w with
          | nil =>
            rw [List.append_nil] at hl₁
            exact .inr (.inl hl₁)
          | cons c w => simp at hw
        · cases w with
          | nil =>
            rw [List.append_nil]
            exact .inr (.inl hl₁)
          | cons c w =>
            obtain ⟨rfl, _⟩ := List.cons.inj hw
            exact absurd (List.mem_append_right l₁ List.mem_cons_self) hmark
  · rintro (hu | ⟨x, rfl⟩ | hv)
    · exact hu.trans (List.prefix_append u _).isInfix
    · exact ⟨x, v, by simp⟩
    · exact hv.trans ((List.suffix_cons _ v).trans (List.suffix_append u _)).isInfix

theorem not_infix_of_not_mem {mark : Text} (h : Byte.newline ∉ s) :
    ¬ mark ++ [Byte.newline] <:+: s := by
  intro hoccurs
  exact h (hoccurs.subset (by simp))

/-! ## Carriage returns -/

/-- A carriage return with the newline behind it. -/
def crlf : Text := [Byte.carriageReturn, Byte.newline]

theorem unixLines_eq (s : Text) : unixLines s = match cut crlf s with
    | some (l, r) => l ++ [Byte.newline] ++ unixLines r
    | none => s :=
  replaceAll_eq (by decide) [Byte.newline] s

theorem unixLines_eq_self (h : ¬ crlf <:+: s) : unixLines s = s := by
  rw [unixLines_eq, cut_eq_none.mpr h]

/-- Each cut takes one carriage return away. -/
theorem count_cut {l r : Text} (h : cut crlf s = some (l, r)) :
    (unixLines s).count Byte.carriageReturn =
        l.count Byte.carriageReturn + (unixLines r).count Byte.carriageReturn ∧
      s.count Byte.carriageReturn =
        l.count Byte.carriageReturn + r.count Byte.carriageReturn + 1 := by
  have hreturn : [Byte.newline].count Byte.carriageReturn = 0 ∧
      crlf.count Byte.carriageReturn = 1 := by decide
  rw [unixLines_eq, h, cut_eq_some h]
  simp only [List.count_append, hreturn]
  omega

theorem count_unixLines_le (s : Text) :
    (unixLines s).count Byte.carriageReturn ≤ s.count Byte.carriageReturn := by
  induction s using cut_induction (by decide : crlf ≠ []) with
  | last s hs => rw [unixLines_eq, hs]
  | next s l r hs ih =>
    have hcount := count_cut hs
    omega

/-- **Where there is a carriage return before a newline, one is left out.** -/
theorem count_unixLines (h : crlf <:+: s) :
    (unixLines s).count Byte.carriageReturn < s.count Byte.carriageReturn := by
  cases hcut : cut crlf s with
  | none => exact absurd h (cut_eq_none.mp hcut)
  | some lr =>
    obtain ⟨l, r⟩ := lr
    have hcount := count_cut hcut
    have hrest := count_unixLines_le r
    omega

end ActionLog.Text
