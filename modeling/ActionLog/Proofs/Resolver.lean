import ActionLog.Code.Resolver
import ActionLog.Pass.CodeCall

/-!
# Resolvers that are free of side effects

What a resolver was asked before must not be told from its answers.  A resolver with a codebook is of
this kind, and it stays so behind a cache that answers what was put into it.

* `Resolver.after` — a resolver after a sequence of codes;
* `Resolver.Answers` — whatever it was asked before, a resolver answers as a function does;
* `LeastRecent` — caches that forget the least recent answer first, by what they hold: each law is
  about one operation;
* `Cached.answers` — a cache of true answers is not seen in the answers;
* `Pass.convertEdits_eq` — which codes a text asks any resolver for, and the edits that its answers
  make; `Pass.convertEdits_spec` — free of side effects, only the answers count.
-/

set_option autoImplicit false

namespace ActionLog

namespace Resolver

variable {ρ : Type} [Resolver ρ] {r : ρ} {answer : Text → Option Text}

/-- The resolver after codes, one after another. -/
def after (r : ρ) (codes : List Text) : ρ := codes.foldl (fun r code => (resolve r code).2) r

theorem after_concat (r : ρ) (codes : List Text) (code : Text) :
    after r (codes ++ [code]) = (resolve (after r codes) code).2 := by
  simp [after]

/-- The answers to codes, one after another. -/
def answersTo : ρ → List Text → List (Option Text)
  | _, [] => []
  | r, code :: codes => (resolve r code).1 :: answersTo (resolve r code).2 codes

/-- Whatever a resolver was asked before, it answers as `answer` does. -/
def Answers (r : ρ) (answer : Text → Option Text) : Prop :=
  ∀ asked code, (resolve (after r asked) code).1 = answer code

/-- One more code is answered, and leaves a resolver that answers alike. -/
theorem Answers.resolve (h : Answers r answer) (code : Text) :
    (Resolver.resolve r code).1 = answer code ∧ Answers (Resolver.resolve r code).2 answer :=
  ⟨h [] code, fun asked => h (code :: asked)⟩

/-- Many codes are answered one by one. -/
theorem Answers.answersTo (h : Answers r answer) (codes : List Text) :
    Resolver.answersTo r codes = codes.map answer ∧ Answers (Resolver.after r codes) answer := by
  induction codes generalizing r with
  | nil => exact ⟨rfl, h⟩
  | cons code codes ih =>
    obtain ⟨hanswer, hnext⟩ := h.resolve code
    obtain ⟨hanswers, hafter⟩ := ih hnext
    refine ⟨?_, hafter⟩
    rw [Resolver.answersTo, hanswer, hanswers, List.map_cons]

/-- What every answer keeps holds of the resolver after any codes. -/
theorem answers_of_invariant {I : ρ → Prop}
    (hstep : ∀ r, I r → ∀ code, (resolve r code).1 = answer code ∧ I (resolve r code).2)
    (h : I r) : Answers r answer := by
  have hafter : ∀ (asked : List Text) (r : ρ), I r → I (after r asked) := by
    intro asked
    induction asked with
    | nil => exact fun _ h => h
    | cons code asked ih => exact fun r h => ih _ (hstep r h code).2
  exact fun asked code => (hstep _ (hafter asked r h) code).1

end Resolver

open Resolver (Answers after answersTo)

theorem BookResolver.consult_book (r : BookResolver) (code : Text) :
    (r.consult code).2.book = r.book := by
  unfold consult
  split <;> rfl

/-- **A codebook always gives the same answers.** -/
theorem BookResolver.answers (r : BookResolver) : Answers r r.book.resolve := by
  refine Resolver.answers_of_invariant (I := fun r' : BookResolver => r'.book = r.book) ?_ rfl
  intro r' h code
  refine ⟨?_, (r'.consult_book code).trans h⟩
  show r'.book.resolve code = _
  rw [h]

/-! ## Caches -/

/-- A cache that forgets the least recent answer first.  It has room for a number of answers, and
holds some of them, newest first. -/
structure LeastRecent (κ : Type) [Cache κ] where
  capacity : κ → Nat
  held : κ → List (Text × Option Text)
  /-- A cache is made empty, with room for a positive number of answers. -/
  made : ∀ size : Int, 1 ≤ size →
    ∃ c : κ, Cache.ofSize size = .ok c ∧ capacity c = size.toNat ∧ held c = []
  refused : ∀ size : Int, size ≤ 0 → (Cache.ofSize size : Except NoCapacity κ) = .error ⟨⟩
  /-- A hit returns what was added, and makes it the newest. -/
  hit : ∀ c code answer, List.lookup code (held c) = some answer →
    (Cache.get c code).1 = some answer ∧
      held (Cache.get c code).2 = (code, answer) :: (held c).filter (·.1 != code)
  miss : ∀ c code, List.lookup code (held c) = none →
    (Cache.get c code).1 = none ∧ held (Cache.get c code).2 = held c
  /-- An addition becomes the newest, and beyond the room there is the oldest is dropped. -/
  added : ∀ c code answer, held (Cache.add c code answer) =
    ((code, answer) :: (held c).filter (·.1 != code)).take (capacity c)
  capacity_get : ∀ c code, capacity (Cache.get c code).2 = capacity c
  capacity_add : ∀ c code answer, capacity (Cache.add c code answer) = capacity c

/-- **A recall forgets the least recent answer first.** -/
def Recall.leastRecent : LeastRecent Recall where
  capacity := Recall.capacity
  held := Recall.answers
  made size hsize := by
    have hpos : ¬ size ≤ 0 := by omega
    exact ⟨⟨size.toNat, []⟩, if_neg hpos, rfl, rfl⟩
  refused size hsize := if_pos hsize
  hit c code answer h := by
    have hget : Recall.get c code = (some answer, c.renew code answer) := by
      simp only [Recall.get, h]
    exact ⟨congrArg Prod.fst hget, congrArg (·.2.answers) hget⟩
  miss c code h := by
    have hget : Recall.get c code = (none, c) := by simp only [Recall.get, h]
    exact ⟨congrArg Prod.fst hget, congrArg (·.2.answers) hget⟩
  added _ _ _ := rfl
  capacity_get c code := by
    show (Recall.get c code).2.capacity = c.capacity
    unfold Recall.get
    split <;> rfl
  capacity_add _ _ _ := rfl

namespace Cached

variable {ρ κ : Type} [Resolver ρ] [Cache κ] {answer : Text → Option Text}

/-- A hit is answered from the cache, and a miss by the resolver. -/
theorem resolve_eq (lru : LeastRecent κ) (r : Cached ρ κ) (code : Text) :
    Resolver.resolve r code =
      match List.lookup code (lru.held r.cache) with
      | some a => (a, ⟨r.resolver, (Cache.get r.cache code).2⟩)
      | none => ((Resolver.resolve r.resolver code).1, ⟨(Resolver.resolve r.resolver code).2,
          Cache.add (Cache.get r.cache code).2 code (Resolver.resolve r.resolver code).1⟩) := by
  show Cached.resolve r code = _
  unfold Cached.resolve
  cases hlookup : List.lookup code (lru.held r.cache) with
  | some a =>
    have hget : Cache.get r.cache code = (some a, (Cache.get r.cache code).2) :=
      Prod.ext (lru.hit _ _ _ hlookup).1 rfl
    rw [hget]
  | none =>
    have hget : Cache.get r.cache code = (none, (Cache.get r.cache code).2) :=
      Prod.ext (lru.miss _ _ hlookup).1 rfl
    rw [hget]

/-- The resolver is free of side effects, and what the cache holds are its answers. -/
structure Faithful (lru : LeastRecent κ) (answer : Text → Option Text) (r : Cached ρ κ) : Prop where
  answers : Answers r.resolver answer
  held : ∀ code a, (code, a) ∈ lru.held r.cache → a = answer code

theorem Faithful.resolve {lru : LeastRecent κ} {r : Cached ρ κ} (h : r.Faithful lru answer)
    (code : Text) : (Resolver.resolve r code).1 = answer code ∧
      (Resolver.resolve r code).2.Faithful lru answer := by
  -- an entry of the cache after this answer is the answer, or was there before
  have hentry : ∀ {c a}, (c, a) ∈ (code, answer code) ::
      (lru.held r.cache).filter (·.1 != code) → a = answer c := by
    intro c a hmem
    rcases List.mem_cons.mp hmem with heq | hmem
    · cases heq; rfl
    · exact h.held c a (List.mem_filter.mp hmem).1
  rw [resolve_eq lru]
  cases hlookup : List.lookup code (lru.held r.cache) with
  | some a =>
    have ha : a = answer code := by
      obtain ⟨l₁, l₂, hl, _⟩ := List.lookup_eq_some_iff.mp hlookup
      exact h.held code a (by rw [hl]; simp)
    subst ha
    refine ⟨rfl, h.answers, fun c a hmem => ?_⟩
    rw [(lru.hit _ _ _ hlookup).2] at hmem
    exact hentry hmem
  | none =>
    obtain ⟨hanswer, hnext⟩ := h.answers.resolve code
    refine ⟨hanswer, hnext, fun c a hmem => ?_⟩
    dsimp only at hmem
    rw [hanswer, lru.added, (lru.miss _ _ hlookup).2] at hmem
    exact hentry (List.mem_of_mem_take hmem)

/-- **A cache of true answers is not seen in the answers.** -/
theorem answers {lru : LeastRecent κ} {r : Cached ρ κ} (h : r.Faithful lru answer) :
    Answers r answer :=
  Resolver.answers_of_invariant (fun _ h code => h.resolve code) h

/-- A cache just made holds nothing, true or not. -/
theorem ofSize_faithful (lru : LeastRecent κ) {r : ρ} (hr : Answers r answer) {size : Int}
    {c : Cached ρ κ} (h : ofSize r size = .ok c) : c.Faithful lru answer := by
  unfold ofSize at h
  by_cases hsize : 1 ≤ size
  · obtain ⟨cache, hcache, _, hheld⟩ := lru.made size hsize
    rw [hcache] at h
    cases h
    exact ⟨hr, fun code a hmem => by rw [hheld] at hmem; cases hmem⟩
  · rw [lru.refused size (by omega)] at h
    cases h

end Cached

/-! ## Calls on codes -/

namespace Pass

variable {ρ : Type} [Resolver ρ] {answer : Text → Option Text}

/-- Whether the resolver is asked for the code of a call. -/
def asks (ambiguous : Text → Bool) (hit : Text.Hit CodeCall) : Bool :=
  !(hit.value.openQuote != hit.value.closeQuote || ambiguous hit.value.code)

/-- The codes that the resolver is asked for, in order. -/
def askedCodes (ambiguous : Text → Bool) (hits : List (Text.Hit CodeCall)) : List Text :=
  (hits.filter (asks ambiguous)).map (·.value.code)

/-- The edit that an answer makes. -/
def onAnswer? (hit : Text.Hit CodeCall) (id : Option Text) : Option Edit :=
  id.map fun id => ⟨hit.start, hit.stop, hit.value.onIdentifier id⟩

/-- The edits that answers make, one for each call that is asked for. -/
def onAnswers (ambiguous : Text → Bool) (hits : List (Text.Hit CodeCall))
    (ids : List (Option Text)) : List Edit :=
  (List.zipWith onAnswer? (hits.filter (asks ambiguous)) ids).filterMap id

/-- **Conversions by any resolver**: it is asked for the codes in order, its answers of the moment
make the edits, and it is left as it is after these codes. -/
theorem convertEdits_eq (ambiguous : Text → Bool) (hits : List (Text.Hit CodeCall)) (r : ρ) :
    convertEdits ambiguous hits r =
      (onAnswers ambiguous hits (answersTo r (askedCodes ambiguous hits)),
        after r (askedCodes ambiguous hits)) := by
  induction hits generalizing r with
  | nil => rfl
  | cons hit hits ih =>
    unfold convertEdits
    cases hask : asks ambiguous hit with
    | false =>
      have hskip := hask
      rw [asks, Bool.not_eq_false'] at hskip
      simp only [hskip, if_true, ih, onAnswers, askedCodes, List.filter_cons, hask,
        Bool.false_eq_true, if_false]
    | true =>
      have hturn := hask
      rw [asks, Bool.not_eq_true'] at hturn
      simp only [hturn, Bool.false_eq_true, if_false, ih, onAnswers, askedCodes, List.filter_cons,
        hask, if_true, List.map_cons, answersTo, List.zipWith_cons_cons]
      cases (Resolver.resolve r hit.value.code).1 <;> rfl

/-- The edit that converts a call whose code is answered by `answer`. -/
def conversion? (ambiguous : Text → Bool) (answer : Text → Option Text) (hit : Text.Hit CodeCall) :
    Option Edit :=
  if asks ambiguous hit then onAnswer? hit (answer hit.value.code) else none

/-- **Conversions depend on the answers alone**, not on what the resolver was asked before. -/
theorem convertEdits_spec (ambiguous : Text → Bool) (hits : List (Text.Hit CodeCall)) {r : ρ}
    (hr : Answers r answer) :
    (convertEdits ambiguous hits r).1 = hits.filterMap (conversion? ambiguous answer) ∧
      Answers (convertEdits ambiguous hits r).2 answer := by
  obtain ⟨hanswers, hafter⟩ := hr.answersTo (askedCodes ambiguous hits)
  rw [convertEdits_eq, hanswers]
  refine ⟨?_, hafter⟩
  rw [onAnswers, askedCodes, List.map_map, List.zipWith_map_right, List.zipWith_self,
    List.filterMap_map, List.filterMap_filter]
  rfl

end Pass

end ActionLog
