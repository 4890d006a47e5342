import ActionLog.Name.Registry
import ActionLog.Pass.Error
import ActionLog.Text.Word

/-!
# Names declared with several values

Recorded code declares a variable again and again with other values.  The first value of a name
keeps it; every later declaration with another value gets a name of its own, and the uses that
follow it are renamed.

* `conflicts` — the declarations whose value differs from the first one of their name;
* `Renaming` — a renaming under way, on its passage down the lines;
* `resolveLines` — the lines with conflicts renamed, in one passage from top to bottom;
* `resolveConflicts` — the same for a text (`ResolveConflicts`).

With a positive window a renaming looks at that many lines and ends after the first use.  Otherwise
it goes on to the next declaration of the old name.
-/

namespace ActionLog.Pass

/-- The value that a name is declared with first. -/
def firstValue (ds : List Declaration) (name : Text) : Option Text :=
  (ds.find? (·.name == name)).map (·.value)

/-- The declarations whose value differs from the first one of their name. -/
def conflicts (ds : List Declaration) : List Declaration :=
  ds.filter fun d => firstValue ds d.name != some d.value

/-- Uses of `old` become `new` on the lines to come: on `left` more lines, or without limit. -/
structure Renaming where
  old : Text
  new : Text
  left : Option Nat
  deriving DecidableEq, Repr

namespace Renaming

/-- The renaming one line further down. -/
def age (r : Renaming) : Renaming := { r with left := r.left.map (· - 1) }

/-- What a renaming makes of a line, and what is left of the renaming, as `renameUses` goes down the
lines.  Declarations are never changed; one of the old name ends the renaming, and so does a use
within a limit. -/
def visit (r : Renaming) (line : Text) : Text × Option Renaming :=
  if r.left = some 0 then (line, none)
  else if Declaration.isDeclaration line then
    if Declaration.nameOf line == r.old then (line, none) else (line, some r.age)
  else if Text.hasWord r.old line then
    (Text.replaceWord r.old r.new line, if r.left.isSome then none else some r)
  else (line, some r.age)

/-- What renamings make of a line, the older ones first, and what is left of them. -/
def visitAll : List Renaming → Text → Text × List Renaming
  | [], line => (line, [])
  | r :: rs, line =>
    let (line, kept) := r.visit line
    let (line, rest) := visitAll rs line
    (line, kept.toList ++ rest)

end Renaming

/-- The first free version of a name that is not declared either.  Every name that is passed over
is taken, so that one attempt more than there are declared names suffices. -/
def freshVariable (declared : List Text) (wanted : Text) :
    (attempts : Nat) → Registry → Text × Registry
  | 0, names => names.allocate .vars wanted
  | attempts + 1, names =>
    let (name, names) := names.allocate .vars wanted
    if declared.contains name then freshVariable declared wanted attempts names else (name, names)

/-- The lines with the conflicting declarations and their uses renamed. -/
def resolveLines (clashes : List Declaration) (declared : List Text) (window : Option Nat) :
    Registry → List Renaming → List Text → List Text × Registry
  | names, _, [] => ([], names)
  | names, active, line :: ls =>
    let (line, active) := Renaming.visitAll active line
    match clashes.find? (·.line == line) with
    | none =>
      let (ls, names) := resolveLines clashes declared window names active ls
      (line :: ls, names)
    | some d =>
      let wanted := d.name ++ [Byte.underscore]
      let (name, names) := freshVariable declared wanted declared.length names
      let active := active ++ [⟨d.name, name, window⟩]
      let (ls, names) := resolveLines clashes declared window names active ls
      (Declaration.rename line name :: ls, names)

/-- `ResolveConflicts`: the text in which every name has one value. -/
def resolveConflicts (window : Int) (names : Registry) (s : Text) :
    Outcome (Text × Registry) (Text × Registry) := do
  let ds ← extractOrFail (s, names) s
  let limit := if window ≤ 0 then none else some window.toNat
  let (ls, names) := resolveLines (conflicts ds) (ds.map (·.name)) limit names [] (Text.lines s)
  return (Text.unlines ls, names)

end ActionLog.Pass
