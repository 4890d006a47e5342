import Mathlib.Data.List.Perm.Basic

/-!
# What sorting keeps, and what it forgets

* `filter_mergeSort` — items that are equal in order stand as they did before;
* `mergeSort_congr` — if no two items are equal in order, then the order they stood in is forgotten.
-/

set_option autoImplicit false

namespace ActionLog

variable {α : Type} {le : α → α → Bool}

/-- **A sort is stable**: a class of items that are all equal in order stands as it did before. -/
theorem filter_mergeSort (htrans : ∀ a b c, le a b = true → le b c = true → le a c = true)
    (htotal : ∀ a b, (le a b || le b a) = true) {p : α → Bool}
    (hclass : ∀ a b, p a = true → p b = true → le a b = true) (l : List α) :
    (l.mergeSort le).filter p = l.filter p := by
  -- the class is in order as it stands, so that it is kept as a sublist
  have hordered : (l.filter p).Pairwise fun a b => le a b = true := by
    refine List.pairwise_of_forall_mem_list fun a ha b hb => ?_
    exact hclass a b (List.mem_filter.mp ha).2 (List.mem_filter.mp hb).2
  have hsub := (List.sublist_mergeSort htrans htotal hordered List.filter_sublist).filter p
  rw [List.filter_filter] at hsub
  simp only [Bool.and_self] at hsub
  exact (hsub.eq_of_length ((List.mergeSort_perm l le).filter p).length_eq.symm).symm

theorem mergeSort_congr (htrans : ∀ a b c, le a b = true → le b c = true → le a c = true)
    (htotal : ∀ a b, (le a b || le b a) = true) {l l' : List α} (hperm : l.Perm l')
    (hanti : ∀ a ∈ l, ∀ b ∈ l, le a b = true → le b a = true → a = b) :
    l.mergeSort le = l'.mergeSort le := by
  have hsorted := ((List.mergeSort_perm l le).trans hperm).trans (List.mergeSort_perm l' le).symm
  refine hsorted.eq_of_pairwise ?_ (List.pairwise_mergeSort htrans htotal l)
    (List.pairwise_mergeSort htrans htotal l')
  intro a b ha hb
  rw [List.mem_mergeSort] at ha hb
  exact hanti a ha b (hperm.mem_iff.mpr hb)

end ActionLog
