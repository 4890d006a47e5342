import ActionLog.Name.Core

/-!
# Handing out names

A registry (`names.Allocator`) remembers which names are taken in each of three scopes.  All scopes
start from the same reserved words, and none of them sees the names of the others.

* `Scope` — variables, functions and parameters, also known by their indices;
* `Registry` — the reserved words and the names taken so far;
* `Registry.allocate` — the least version of a core that is free, which is taken from then on;
* `Registry.reserve`, `Registry.reset` — taking a name as it stands, and forgetting all names.

The search for a free version looks at one version more than there are taken names.  Versions of
a core are pairwise distinct, so one of those is free.
-/

namespace ActionLog

/-- `names.Scope`: the sets of names that must not meet. -/
inductive Scope where
  | vars
  | functions
  | parameters
  deriving DecidableEq, Repr

namespace Scope

/-- An index that belongs to no scope. -/
structure OutOfRange where
  index : Int
  deriving DecidableEq, Repr

/-- The scope with a given index. -/
def ofIndex (i : Int) : Except OutOfRange Scope :=
  if i = 0 then .ok vars
  else if i = 1 then .ok functions
  else if i = 2 then .ok parameters
  else .error ⟨i⟩

/-- What is said of an index without a scope; negative ones have no length to be compared with. -/
def OutOfRange.message (e : OutOfRange) : Text :=
  utf8 "runtime error: index out of range [" ++ Text.signed e.index ++ utf8 "]" ++
    if e.index < 0 then [] else utf8 " with length 3"

/-- The name of a scope. -/
def label : Scope → Text
  | vars => utf8 "variables"
  | functions => utf8 "functions"
  | parameters => utf8 "parameters"

/-- `Scope.String`: the name of the scope with an index, which need not exist. -/
def labelOfIndex (i : Int) : Text :=
  match ofIndex i with
  | .ok s => s.label
  | .error _ => utf8 "scope(" ++ Text.signed i ++ utf8 ")"

end Scope

/-- `names.Allocator`: the names taken in each scope, and the words that no scope may use. -/
structure Registry where
  reserved : List Text
  vars : List Text
  functions : List Text
  parameters : List Text
  deriving DecidableEq, Repr

namespace Registry

/-- `names.New`: a registry in which only the reserved words are taken. -/
def ofReserved (reserved : List Text) : Registry := ⟨reserved, reserved, reserved, reserved⟩

/-- The names taken in a scope. -/
def taken (r : Registry) : Scope → List Text
  | .vars => r.vars
  | .functions => r.functions
  | .parameters => r.parameters

/-- The registry with other names taken in a scope. -/
def setTaken (r : Registry) (names : List Text) : Scope → Registry
  | .vars => { r with vars := names }
  | .functions => { r with functions := names }
  | .parameters => { r with parameters := names }

/-- `Reset`: forgets the names of a scope, down to the reserved words. -/
def reset (r : Registry) (s : Scope) : Registry := r.setTaken r.reserved s

/-- `Reserve`: takes a name as it stands. -/
def reserve (r : Registry) (s : Scope) (name : Text) : Registry :=
  r.setTaken (name :: r.taken s) s

/-- The least version of a core that is not among the names given. -/
def freeVersion (names : List Text) (stem : Text) : Text :=
  let bound := names.length + 1
  let free := (List.range' 1 bound).find? fun k => !names.contains (Name.version stem k)
  Name.version stem (free.getD bound)

/-- `Allocate`: a free name with the core of `wanted`, and the registry in which it is taken. -/
def allocate (r : Registry) (s : Scope) (wanted : Text) : Text × Registry :=
  let name := freeVersion (r.taken s) (Name.core wanted)
  (name, r.reserve s name)

end Registry

end ActionLog
