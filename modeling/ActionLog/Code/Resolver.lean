import ActionLog.Code.Table

/-!
# Resolvers

A resolver answers codes, and may be another one after each answer.

* `Resolver` — anything that answers codes (`charid.Resolver`);
* `BookResolver` — answers from a codebook, and counts how often its lookup was consulted
  (`charid.New`);
* `Cache` — what a cache of answers has to offer;
* `Cached` — a resolver behind a cache (`charid.Cached`), which is asked only for codes that the
  cache does not know;
* `Recall` — the cache in use: the answers to the latest codes, newest first.

Every answer is cached, also that a code has no identifier.
-/

namespace ActionLog

/-- Answers codes: the identifier, or none if the code must be left as it is. -/
class Resolver (ρ : Type) where
  resolve : ρ → Text → Option Text × ρ

/-! ## Answers from a codebook -/

/-- A codebook, and how often its lookup was consulted. -/
structure BookResolver where
  book : Codebook
  consulted : Nat

namespace BookResolver

/-- `charid.New`: a resolver before its first answer. -/
def ofBook (book : Codebook) : BookResolver := ⟨book, 0⟩

/-- The answer of the codebook; ambiguous codes are refused without consulting the lookup. -/
def consult (r : BookResolver) (code : Text) : Option Text × BookResolver :=
  (r.book.resolve code,
    if r.book.isAmbiguous code then r else { r with consulted := r.consulted + 1 })

instance : Resolver BookResolver where
  resolve := consult

end BookResolver

/-! ## Answers from a cache -/

/-- A cache must have room for at least one answer. -/
structure NoCapacity where
  deriving DecidableEq, Repr

/-- The complaint about a cache without room. -/
def NoCapacity.message (_ : NoCapacity) : Text :=
  utf8 "charid cache: must provide a positive size"

/-- A cache of answers: made with room for a number of them, asked for one, and given one to keep. -/
class Cache (κ : Type) where
  ofSize : Int → Except NoCapacity κ
  get : κ → Text → Option (Option Text) × κ
  add : κ → Text → Option Text → κ

/-- A resolver and a cache of its answers. -/
structure Cached (ρ κ : Type) where
  resolver : ρ
  cache : κ
  deriving DecidableEq, Repr

namespace Cached

variable {ρ κ : Type} [Resolver ρ] [Cache κ]

/-- `charid.Cached`: a resolver behind an empty cache with room for `size` answers. -/
def ofSize (r : ρ) (size : Int) : Except NoCapacity (Cached ρ κ) :=
  (Cache.ofSize size).map fun cache => ⟨r, cache⟩

/-- The cached answer to a code, or else that of the resolver, which is cached. -/
def resolve (r : Cached ρ κ) (code : Text) : Option Text × Cached ρ κ :=
  match Cache.get r.cache code with
  | (some answer, cache) => (answer, ⟨r.resolver, cache⟩)
  | (none, cache) =>
    let (answer, resolver) := Resolver.resolve r.resolver code
    (answer, ⟨resolver, Cache.add cache code answer⟩)

instance : Resolver (Cached ρ κ) where
  resolve := resolve

end Cached

/-- The answers to the latest codes, newest first. -/
structure Recall where
  capacity : Nat
  answers : List (Text × Option Text)
  deriving DecidableEq, Repr

namespace Recall

/-- An empty recall with room for `size` answers. -/
def ofSize (size : Int) : Except NoCapacity Recall :=
  if size ≤ 0 then .error ⟨⟩ else .ok ⟨size.toNat, []⟩

/-- The recall with an answer made its newest. -/
def renew (r : Recall) (code : Text) (answer : Option Text) : Recall :=
  { r with answers := (code, answer) :: r.answers.filter (·.1 != code) }

/-- The remembered answer to a code, which becomes the newest. -/
def get (r : Recall) (code : Text) : Option (Option Text) × Recall :=
  match List.lookup code r.answers with
  | some answer => (some answer, r.renew code answer)
  | none => (none, r)

/-- The recall with one answer more; beyond the capacity the oldest is forgotten. -/
def add (r : Recall) (code : Text) (answer : Option Text) : Recall :=
  { r with answers := (r.renew code answer).answers.take r.capacity }

instance : Cache Recall where
  ofSize := ofSize
  get := get
  add := add

end Recall

end ActionLog
