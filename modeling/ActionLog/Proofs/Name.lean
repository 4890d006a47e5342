import ActionLog.Name.Core
import ActionLog.Proofs.Trim

/-!
# Versions of a name

* `Text.natOfDigits_decimal` — a numeral denotes its number, so that numerals are distinct;
* `Name.version_injective` — the versions of a core are pairwise distinct;
* `Name.core_isIdentifier`, `Name.version_isIdentifier` — cores and their versions may be used as
  names;
* `Name.core_version` — the versions of a core have that core, so that versions of different cores
  are different names;
* `Name.underscore_mem_core` — a core keeps the underscore that its text ends with.
-/

set_option autoImplicit false

namespace ActionLog

namespace Text

theorem digit_toNat_all : ∀ d, d < 10 → (digit d).toNat - 0x30 = d := by decide

theorem digit_isDigit_all : ∀ d, d < 10 → Byte.isDigit (digit d) = true := by decide

theorem decimal_ne_nil (n : Nat) : decimal n ≠ [] := by
  rw [decimal]
  split <;> simp

theorem decimal_all_digit (n : Nat) : ∀ b ∈ decimal n, Byte.isDigit b = true := by
  rw [decimal]
  split
  · rename_i h
    simp only [List.mem_singleton]
    rintro b rfl
    exact digit_isDigit_all n h
  · intro b hb
    rcases List.mem_append.mp hb with hb | hb
    · exact decimal_all_digit (n / 10) b hb
    · rw [List.mem_singleton.mp hb]
      exact digit_isDigit_all _ (by omega)
termination_by n

/-- A numeral denotes its number. -/
theorem natOfDigits_decimal (n : Nat) : natOfDigits (decimal n) = n := by
  rw [decimal]
  split
  · rename_i h
    simp [natOfDigits, digit_toNat_all n h]
  · have ih := natOfDigits_decimal (n / 10)
    unfold natOfDigits at ih ⊢
    rw [List.foldl_append, ih, List.foldl_cons, List.foldl_nil, digit_toNat_all _ (by omega)]
    omega
termination_by n

theorem decimal_injective {m n : Nat} (h : decimal m = decimal n) : m = n := by
  rw [← natOfDigits_decimal m, h, natOfDigits_decimal]

end Text

namespace Byte

theorem isName_of_isDigit {b : UInt8} (h : isDigit b = true) : isName b = true := by
  simp [isName, isWord, h]

end Byte

namespace Name

theorem placeholder_isIdentifier : IsIdentifier placeholder := by decide

/-- **Cores may be used as names.** -/
theorem core_isIdentifier (s : Text) : IsIdentifier (core s) := by
  unfold core
  generalize hd : (s.filter Byte.isName).dropWhile Byte.isDigit = d
  have hname : ∀ b ∈ d, Byte.isName b = true := by
    intro b hb
    rw [← hd] at hb
    exact (List.mem_filter.mp ((List.dropWhile_suffix _).subset hb)).2
  have hhead : ∀ b rest, d = b :: rest → Byte.isDigit b = false := by
    intro b rest h
    have hne : (s.filter Byte.isName).dropWhile Byte.isDigit ≠ [] := by rw [hd, h]; simp
    have hnot := List.head_dropWhile_not Byte.isDigit hne
    simpa [hd, h] using hnot
  have hpre := Text.trimEndBy_initial Byte.isDigit d
  split
  · exact placeholder_isIdentifier
  · rename_i hne
    refine ⟨?_, ?_⟩
    · rw [List.all_eq_true]
      exact fun b hb => hname b (hpre.subset hb)
    · cases ht : Text.trimEndBy Byte.isDigit d with
      | nil => exact absurd ht hne
      | cons b rest =>
        obtain ⟨u, hu⟩ := hpre
        rw [ht] at hu
        simp [hhead b (rest ++ u) hu.symm]

theorem trimEndBy_core (s : Text) : Text.trimEndBy Byte.isDigit (core s) = core s := by
  unfold core
  split
  · decide
  · exact Text.trimEndBy_trimEndBy _ _

/-- An identifier is its own core but for the digits at its end. -/
theorem core_append {stem ds : Text} (hid : IsIdentifier stem)
    (htrim : Text.trimEndBy Byte.isDigit stem = stem) (hds : ∀ b ∈ ds, Byte.isDigit b = true) :
    core (stem ++ ds) = stem := by
  obtain ⟨hall, hhead⟩ := hid
  rw [List.all_eq_true] at hall
  have hfilter : (stem ++ ds).filter Byte.isName = stem ++ ds := by
    rw [List.filter_eq_self]
    intro b hb
    rcases List.mem_append.mp hb with hb | hb
    · exact hall b hb
    · exact Byte.isName_of_isDigit (hds b hb)
  cases stem with
  | nil => simp at hhead
  | cons b rest =>
    have hb : Byte.isDigit b = false := by simpa using hhead
    unfold core
    rw [hfilter, List.cons_append, List.dropWhile_cons_of_neg (by simp [hb]), ← List.cons_append,
      Text.trimEndBy_append _ hds, htrim]

/-- **The versions of a core have that core.** -/
theorem core_version (s : Text) (k : Nat) : core (version (core s) k) = core s := by
  unfold version
  split
  · have hempty := core_append (core_isIdentifier s) (trimEndBy_core s) (List.forall_mem_nil _)
    rwa [List.append_nil] at hempty
  · exact core_append (core_isIdentifier s) (trimEndBy_core s) (Text.decimal_all_digit k)

theorem version_isIdentifier {stem : Text} (h : IsIdentifier stem) (k : Nat) :
    IsIdentifier (version stem k) := by
  obtain ⟨hall, hhead⟩ := h
  unfold version
  split
  · exact ⟨hall, hhead⟩
  · refine ⟨?_, ?_⟩
    · rw [List.all_eq_true] at hall ⊢
      intro b hb
      rcases List.mem_append.mp hb with hb | hb
      · exact hall b hb
      · exact Byte.isName_of_isDigit (Text.decimal_all_digit k b hb)
    · cases stem with
      | nil => simp at hhead
      | cons b rest => exact hhead

/-- **The versions of a core are pairwise distinct.** -/
theorem version_injective {stem : Text} {j k : Nat} (hj : 1 ≤ j) (hk : 1 ≤ k)
    (h : version stem j = version stem k) : j = k := by
  unfold version at h
  split at h <;> split at h
  · omega
  · exact absurd (List.self_eq_append_right.mp h) (Text.decimal_ne_nil k)
  · exact absurd (List.self_eq_append_right.mp h.symm) (Text.decimal_ne_nil j)
  · exact Text.decimal_injective (List.append_cancel_left h)

theorem subset_version (stem : Text) (k : Nat) : stem ⊆ version stem k := by
  unfold version
  split
  · exact List.Subset.refl _
  · exact List.subset_append_left _ _

/-- An underscore is no digit, so that none of the digits before it is at the end. -/
theorem underscore_mem_core (s : Text) : Byte.underscore ∈ core (s ++ [Byte.underscore]) := by
  have hkept : ∃ d, ((s ++ [Byte.underscore]).filter Byte.isName).dropWhile Byte.isDigit =
      d ++ [Byte.underscore] := by
    have hf : (s ++ [Byte.underscore]).filter Byte.isName =
        s.filter Byte.isName ++ [Byte.underscore] := by
      rw [List.filter_append]
      rfl
    rw [hf, List.dropWhile_append]
    split
    · exact ⟨[], rfl⟩
    · exact ⟨_, rfl⟩
  obtain ⟨d, hd⟩ := hkept
  have hmem := Text.mem_trimEndBy_concat (p := Byte.isDigit) d (b := Byte.underscore) (by decide)
  unfold core
  rw [hd]
  split
  · rename_i hnil
    rw [hnil] at hmem
    cases hmem
  · exact hmem

end Name

end ActionLog
