import ActionLog.Pass.Error
import ActionLog.Proofs.Registry

/-!
# What passes return, compared

A pass gives a text and names whether it succeeds or meets a malformed declaration, and nothing if it
aborts.

* `Outcome.given?` — what a pass gives, in either case;
* `Outcome.Rel` — outcomes of one kind, with the same error, that give things which are related;
* `Uncomplaining` — steps that meet no malformed declaration; a pass that looks for declarations and
  is then uncomplaining fails as extraction does (`extractOrFail_bind_iff`);
* `Registry.LocalOrFail` — passes that read and write the names of one scope only, also where they
  fail; such a pass does not see the names of another scope (`LocalOrFail.carry`).
-/

set_option autoImplicit false

namespace ActionLog

namespace Outcome

variable {α β γ δ : Type}

/-- What a pass gives, with or without an error. -/
def given? : Outcome α α → Option α
  | .ok a => some a
  | .error (.malformed _ back) => some back
  | .error (.aborted _) => none

theorem onto_eq_ok {f : α → β} {x : Outcome α α} {b : β} (h : x.onto f = .ok b) :
    ∃ a, x = .ok a ∧ f a = b := by
  rcases x with (⟨bad, back⟩ | cause) | a
  · cases h
  · cases h
  · exact ⟨a, rfl, Except.ok.inj h⟩

theorem onto_malformed_iff {f : α → β} {x : Outcome α α} {bad : BadLine} {b : β} :
    x.onto f = .error (.malformed bad b) ↔ ∃ a, x = .error (.malformed bad a) ∧ f a = b := by
  constructor
  · intro h
    rcases x with (⟨bad', back⟩ | cause) | a <;> cases h
    exact ⟨back, rfl, rfl⟩
  · rintro ⟨a, rfl, rfl⟩
    rfl

/-- A step that gives `back` where it fails gives what a function makes of it. -/
theorem onto_malformed_iff_of {f : α → β} {x : Outcome α α} {bad : BadLine} {b : β} {back : α}
    {p : Prop} (hx : ∀ a, x = .error (.malformed bad a) ↔ p ∧ a = back) :
    x.onto f = .error (.malformed bad b) ↔ p ∧ b = f back := by
  rw [onto_malformed_iff]
  constructor
  · rintro ⟨a, ha, rfl⟩
    obtain ⟨hp, rfl⟩ := (hx a).mp ha
    exact ⟨hp, rfl⟩
  · rintro ⟨hp, rfl⟩
    exact ⟨back, (hx back).mpr ⟨hp, rfl⟩, rfl⟩

theorem given?_eq_some {x : Outcome α α} {a : α} (h : x.given? = some a) :
    x = .ok a ∨ ∃ bad, x = .error (.malformed bad a) := by
  rcases x with (⟨bad, back⟩ | cause) | a'
  · exact .inr ⟨bad, by rw [Option.some.inj h]⟩
  · cases h
  · exact .inl (by rw [Option.some.inj h])

theorem onto_onto (g : β → γ) (f : α → β) (x : Outcome α α) :
    (x.onto f).onto g = x.onto (g ∘ f) := by
  rcases x with (⟨bad, back⟩ | cause) | a <;> rfl

/-- Both succeed, both fail on the same line, or both abort for the same reason; and what they give is
related. -/
inductive Rel (R : α → β → Prop) : Outcome α α → Outcome β β → Prop
  | ok {a : α} {b : β} (h : R a b) : Rel R (.ok a) (.ok b)
  | malformed (bad : BadLine) {a : α} {b : β} (h : R a b) :
    Rel R (.error (.malformed bad a)) (.error (.malformed bad b))
  | aborted (cause : Abort) : Rel R (.error (.aborted cause)) (.error (.aborted cause))

namespace Rel

variable {R : α → β → Prop} {x : Outcome α α} {y : Outcome β β}

/-- Related outcomes are related when seen through functions that keep the relation. -/
theorem onto {S : γ → δ → Prop} {f : α → γ} {g : β → δ} (h : Rel R x y)
    (hfg : ∀ a b, R a b → S (f a) (g b)) : Rel S (x.onto f) (y.onto g) := by
  cases h with
  | ok h => exact .ok (hfg _ _ h)
  | malformed bad h => exact .malformed bad (hfg _ _ h)
  | aborted cause => exact .aborted cause

/-- A relation between what is given need only be shown of what is given. -/
theorem imp {S : α → β → Prop} (h : Rel R x y)
    (himp : ∀ a b, x.given? = some a → y.given? = some b → R a b → S a b) : Rel S x y := by
  cases h with
  | ok h => exact .ok (himp _ _ rfl rfl h)
  | malformed bad h => exact .malformed bad (himp _ _ rfl rfl h)
  | aborted cause => exact .aborted cause

theorem eq {x y : Outcome α α} (h : Rel Eq x y) : x = y := by
  cases h with
  | ok h => rw [h]
  | malformed bad h => rw [h]
  | aborted cause => rfl

theorem refl_of {S : α → α → Prop} (x : Outcome α α) (h : ∀ a, S a a) : Rel S x x := by
  rcases x with (⟨bad, back⟩ | cause) | a
  · exact .malformed bad (h back)
  · exact .aborted cause
  · exact .ok (h a)

end Rel

end Outcome

/-! ## Steps without complaints -/

/-- A step that does not complain about a declaration: it succeeds, or it aborts. -/
def Uncomplaining {α β : Type} (x : Outcome β α) : Prop :=
  ∀ bad back, x ≠ .error (.malformed bad back)

namespace Uncomplaining

variable {α β γ : Type}

theorem ok (a : α) : Uncomplaining (.ok a : Outcome β α) := nofun

theorem aborted (cause : Abort) : Uncomplaining (.error (.aborted cause) : Outcome β α) := nofun

theorem bind {x : Outcome β α} {f : α → Outcome β γ} (hx : Uncomplaining x)
    (hf : ∀ a, Uncomplaining (f a)) : Uncomplaining (x >>= f) := by
  cases x with
  | error e =>
    intro bad back h
    cases h
    exact hx bad back rfl
  | ok a => exact hf a

theorem map {x : Outcome β α} (hx : Uncomplaining x) (f : α → γ) : Uncomplaining (x.map f) := by
  cases x with
  | error e =>
    intro bad back h
    cases h
    exact hx bad back rfl
  | ok a => exact ok (f a)

theorem onto {x : Outcome α α} (hx : Uncomplaining x) (f : α → γ) : Uncomplaining (x.onto f) := by
  intro bad back h
  obtain ⟨a, ha, _⟩ := Outcome.onto_malformed_iff.mp h
  exact hx bad a ha

theorem foldlM {f : γ → α → Outcome β γ} (hf : ∀ c a, Uncomplaining (f c a)) (l : List α) :
    ∀ c, Uncomplaining (l.foldlM f c) := by
  induction l with
  | nil =>
    intro c
    exact ok c
  | cons a l ih =>
    intro c
    rw [List.foldlM_cons]
    exact (hf c a).bind ih

theorem reviseOrAbort (s : Text) (edits : List Edit) :
    Uncomplaining (ActionLog.reviseOrAbort s edits : Outcome β Text) := by
  unfold ActionLog.reviseOrAbort
  cases revise s edits <;> exact nofun

end Uncomplaining

/-- **A pass that looks for declarations first, and complains about nothing else**, fails as
extraction does, and gives back what it was to give. -/
theorem extractOrFail_bind_iff {α β : Type} {s : Text} {back b : β}
    {k : List Declaration → Outcome β α} {bad : BadLine} (hk : ∀ ds, Uncomplaining (k ds)) :
    extractOrFail back s >>= k = .error (.malformed bad b) ↔
      Declaration.extract s = .error bad ∧ b = back := by
  unfold extractOrFail
  cases Declaration.extract s with
  | error bad' =>
    constructor
    · intro h
      cases h
      exact ⟨rfl, rfl⟩
    · rintro ⟨h, rfl⟩
      cases h
      rfl
  | ok ds => exact ⟨fun h => absurd h (hk ds bad b), fun h => absurd h.1 nofun⟩

/-! ## Passes within one scope -/

namespace Registry

variable {α β : Type} {s t : Scope}

/-- A pass that reads and writes the names of one scope only: what it gives, with or without an error,
and the names of the scope after it, depend on the names of the scope before it, and all else is
kept. -/
def LocalOrFail (s : Scope) (f : Registry → Outcome (α × Registry) (α × Registry)) : Prop :=
  ∀ r r' : Registry, r.taken s = r'.taken s →
    Outcome.Rel (fun x y => x.1 = y.1 ∧ x.2 = r.setTaken (y.2.taken s) s) (f r) (f r')

/-- A pass that fails at once, and gives back the names it was given. -/
theorem LocalOrFail.malformed (bad : BadLine) (a : α) :
    LocalOrFail s fun r => .error (.malformed bad (a, r)) := by
  intro r r' h
  refine .malformed bad ⟨rfl, ?_⟩
  rw [← h, setTaken_taken]

/-- A local step is followed by one that may abort, but does not look at the registry. -/
theorem Local.orFail {f : Registry → α × Registry} (hf : Local s f)
    {k : α → Outcome (β × Registry) β} (hk : ∀ a, Uncomplaining (k a)) :
    LocalOrFail s fun r => (k (f r).1).map fun b => (b, (f r).2) := by
  intro r r' h
  obtain ⟨hval, hreg⟩ := hf r r' h
  dsimp only
  rw [hval]
  cases hx : k (f r').1 with
  | error e =>
    cases e with
    | malformed bad back => exact absurd hx (hk _ bad back)
    | aborted cause => exact .aborted cause
  | ok b => exact .ok ⟨rfl, hreg⟩

namespace LocalOrFail

variable {f : Registry → Outcome (α × Registry) (α × Registry)}

/-- What a local pass leaves as it was. -/
theorem frame (hf : LocalOrFail s f) {r q : Registry} {a : α} (h : (f r).given? = some (a, q)) :
    q = r.setTaken (q.taken s) s := by
  have hrel := hf r r rfl
  generalize f r = x at h hrel
  rcases x with (⟨bad, back⟩ | cause) | b
  · cases h
    cases hrel with
    | malformed _ h => exact h.2
  · cases h
  · cases h
    cases hrel with
    | ok h => exact h.2

/-- **A pass within one scope does not see the names of another**, and carries them along. -/
theorem carry (hf : LocalOrFail s f) (hst : s ≠ t) (r : Registry) (names : List Text) :
    Outcome.Rel (fun x y => x.1 = y.1 ∧ x.2 = y.2.setTaken names t)
      (f (r.setTaken names t)) (f r) := by
  refine (hf (r.setTaken names t) r (taken_setTaken_of_ne r names hst)).imp ?_
  intro x y _ hy hxy
  refine ⟨hxy.1, ?_⟩
  rw [hxy.2, setTaken_comm r names (y.2.taken s) hst.symm, ← hf.frame hy]

end LocalOrFail

end Registry

end ActionLog
