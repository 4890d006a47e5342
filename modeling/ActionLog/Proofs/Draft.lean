import ActionLog.Draft
import Mathlib.Data.List.Basic

/-!
# Edits made from the left to the right

* `revise_eq_splice` — edits that are queued in order are made in that order;
* `Makeable` — edits inside the text that keep apart; `revise_apart` says that they can all be made;
* `splice_cons`, `splice_edit` — making them byte by byte.
-/

set_option autoImplicit false

namespace ActionLog

/-- The edit lies inside of a text. -/
def Edit.Within (s : Text) (e : Edit) : Prop := e.start ≤ e.stop ∧ e.stop ≤ s.length

namespace Draft

/-- No edit starts before an earlier one ends. -/
def Apart (es : List Edit) : Prop := es.Pairwise fun a b => a.stop ≤ b.start

instance (es : List Edit) : Decidable (Apart es) :=
  inferInstanceAs (Decidable (es.Pairwise fun a b => a.stop ≤ b.start))

theorem replace_eq_ok {d d' : Draft} {e : Edit}
    (h : d.replace e.start e.stop e.text = .ok d') :
    d' = ⟨d.base, d.queue ++ [e]⟩ := by
  unfold replace at h
  split at h
  · cases h
  · cases h
    simp

/-- Queueing edits appends them to the queue. -/
theorem foldlM_replace {edits : List Edit} {d d' : Draft}
    (h : edits.foldlM (fun (d : Draft) e => d.replace e.start e.stop e.text) d = .ok d') :
    d' = ⟨d.base, d.queue ++ edits⟩ := by
  induction edits generalizing d with
  | nil =>
    cases h
    simp
  | cons e es ih =>
    rw [List.foldlM_cons] at h
    cases hr : d.replace e.start e.stop e.text with
    | error err =>
      rw [hr] at h
      cases h
    | ok d₁ =>
      rw [hr] at h
      rw [ih h, replace_eq_ok hr]
      simp

/-- Edits inside the text can be queued. -/
theorem foldlM_replace_ok {edits : List Edit} {d : Draft}
    (h : ∀ e ∈ edits, e.start ≤ e.stop ∧ e.stop ≤ d.base.length) :
    edits.foldlM (fun (d : Draft) e => d.replace e.start e.stop e.text) d =
      .ok ⟨d.base, d.queue ++ edits⟩ := by
  induction edits generalizing d with
  | nil => simp [pure, Except.pure]
  | cons e es ih =>
    rw [List.forall_mem_cons] at h
    have hreplace : d.replace e.start e.stop e.text = .ok ⟨d.base, d.queue ++ [e]⟩ := by
      unfold replace
      rw [if_neg (by simp; omega)]
      simp
    rw [List.foldlM_cons, hreplace]
    have hrest := ih (d := ⟨d.base, d.queue ++ [e]⟩) h.2
    rwa [List.append_assoc] at hrest

theorem firstOverlap_eq_none {edits : List Edit}
    (h : edits.Pairwise fun a b => a.stop ≤ b.start) : firstOverlap edits = none := by
  induction edits with
  | nil => rfl
  | cons a es ih =>
    cases es with
    | nil => rfl
    | cons b es =>
      have hab := List.rel_of_pairwise_cons h List.mem_cons_self
      rw [firstOverlap, if_neg (Nat.not_lt.mpr hab)]
      exact ih h.of_cons

/-- Bytes before the first edit are kept. -/
theorem splice_cons {u s : Text} {b : UInt8} {edits : List Edit}
    (h : ∀ e ∈ edits, u.length + 1 ≤ e.start) :
    splice (u ++ b :: s) u.length edits = b :: splice (u ++ b :: s) (u.length + 1) edits := by
  cases edits with
  | nil =>
    have htail : (u ++ b :: s).drop (u.length + 1) = s := by
      rw [← List.drop_drop, List.drop_left]
      rfl
    simp only [splice]
    rw [List.drop_left, htail]
  | cons e es =>
    have hstart := h e List.mem_cons_self
    obtain ⟨k, hk⟩ : ∃ k, e.start = u.length + (k + 1) := ⟨e.start - u.length - 1, by omega⟩
    have htake : (u ++ b :: s).take e.start = u ++ b :: s.take k := by
      rw [hk, List.take_length_add_append]
      rfl
    have htail : (u ++ b :: s.take k).drop (u.length + 1) = s.take k := by
      rw [← List.drop_drop, List.drop_left]
      rfl
    simp only [splice]
    rw [htake, List.drop_left, htail]
    rfl

theorem splice_append {u r s : Text} {edits : List Edit}
    (h : ∀ e ∈ edits, (u ++ r).length ≤ e.start) :
    splice (u ++ r ++ s) u.length edits = r ++ splice (u ++ r ++ s) (u ++ r).length edits := by
  induction r generalizing u with
  | nil => simp
  | cons b r ih =>
    have hassoc : u ++ b :: r = u ++ [b] ++ r := by simp
    rw [hassoc] at h
    have hrest := ih h
    have hlen : (u ++ [b]).length = u.length + 1 := by simp
    rw [hlen] at hrest
    rw [hassoc, List.cons_append, ← hrest, List.append_assoc, List.append_assoc]
    refine splice_cons fun e he => ?_
    have := h e he
    simp only [List.length_append, List.length_cons, List.length_nil] at this
    omega

/-- An edit that starts here puts its text in the place of what it covers. -/
theorem splice_edit (u s : Text) (stop : Nat) (new : Text) (edits : List Edit) :
    splice (u ++ s) u.length (⟨u.length, stop, new⟩ :: edits) =
      new ++ splice (u ++ s) stop edits := by
  simp [splice]

end Draft

/-- **Edits that are queued in order are made in that order.** -/
theorem revise_eq_splice {s out : Text} {edits : List Edit} (h : revise s edits = .ok out)
    (hsorted : edits.Pairwise fun a b => a.start < b.start) : out = Draft.splice s 0 edits := by
  unfold revise at h
  cases hd : edits.foldlM (fun (d : Draft) e => d.replace e.start e.stop e.text)
      (Draft.ofText s) with
  | error e =>
    rw [hd] at h
    cases h
  | ok d =>
    rw [hd] at h
    have hqueue := Draft.foldlM_replace hd
    have hle : edits.Pairwise fun a b => Edit.le a b = true := by
      refine hsorted.imp fun {a b} hab => ?_
      simp [Edit.le, hab]
    have hresult : d.result = .ok out := h
    rw [hqueue] at hresult
    simp only [Draft.result, Draft.settle, Draft.ofText, List.nil_append,
      List.mergeSort_of_pairwise hle] at hresult
    split at hresult
    · cases hresult
    · cases hresult
      rfl

/-- **Edits inside the text that keep apart can all be made.** -/
theorem revise_apart {s : Text} {edits : List Edit}
    (hrange : ∀ e ∈ edits, e.start ≤ e.stop ∧ e.stop ≤ s.length)
    (hapart : edits.Pairwise fun a b => a.stop ≤ b.start) :
    revise s edits = .ok (Draft.splice s 0 edits) := by
  have hle : edits.Pairwise fun a b => Edit.le a b = true := by
    refine hapart.imp_of_mem fun {a b} ha hb hab => ?_
    have hstart := (hrange a ha).1
    have hstop := (hrange b hb).1
    simp only [Edit.le, Bool.or_eq_true, Bool.and_eq_true, decide_eq_true_eq, beq_iff_eq]
    omega
  have hqueue := Draft.foldlM_replace_ok (d := Draft.ofText s) hrange
  unfold revise
  rw [hqueue]
  show Draft.result ⟨s, [] ++ edits⟩ = _
  simp only [Draft.result, Draft.settle, List.nil_append, List.mergeSort_of_pairwise hle,
    Draft.firstOverlap_eq_none hapart]

/-- Edits that can be queued and made together: they lie inside of the text and keep apart. -/
structure Makeable (s : Text) (es : List Edit) : Prop where
  within : ∀ e ∈ es, e.Within s
  apart : Draft.Apart es

theorem Makeable.revise_eq {s : Text} {es : List Edit} (h : Makeable s es) :
    revise s es = .ok (Draft.splice s 0 es) :=
  revise_apart h.within h.apart

end ActionLog
