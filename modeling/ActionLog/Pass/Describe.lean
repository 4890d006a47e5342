import ActionLog.Name.Registry
import ActionLog.Pass.Construction
import ActionLog.Pass.Error
import ActionLog.Tables.Basic
import ActionLog.Text.Word

/-!
# Variables named after their objects

A variable that holds an object is named after the constructor of the object.  All other declared
names are reserved, so that none of them is handed out.

* `objectName?` — the name for a value, if a listed constructor makes it;
* `Renames` — old names and their new ones;
* `describe` — a text with all of them renamed at once (`RenameByConstructor`).
-/

namespace ActionLog.Pass

/-- `constructorBase`: the name for the object that a value makes, from the last part of the
constructor's name. -/
def objectName? (constructors : List Constructor) (value : Text) : Option Text := do
  if !isConstruction value then none
  else
    let (name, _) ← constructorCall? value
    let last := ((Text.cutLast Byte.dot name).map (·.2)).getD name
    let c ← constructors.find? (·.name == last)
    if c.base == [] then none else some c.base

/-- Old names with their new ones. -/
abbrev Renames := List (Text × Text)

/-- The registry with the names of all other variables reserved. -/
def reserveOthers (constructors : List Constructor) (ds : List Declaration) (names : Registry) :
    Registry :=
  (ds.filter fun d => (objectName? constructors d.value).isNone).foldl
    (fun names d => names.reserve .vars d.name) names

/-- A new name for every variable that holds an object, handed out in order of declaration. -/
def renames (constructors : List Constructor) :
    List Declaration → Renames → Registry → Renames × Registry
  | [], done, names => (done, names)
  | d :: ds, done, names =>
    match objectName? constructors d.value with
    | some base =>
      if (List.lookup d.name done).isSome then renames constructors ds done names
      else
        let (name, names) := names.allocate .vars base
        renames constructors ds (done ++ [(d.name, name)]) names
    | none => renames constructors ds done names

/-- The edits that rename every identifier of a text that has a new name. -/
def renameEdits (renamed : Renames) (s : Text) : List Edit :=
  (Text.findAll .byte Text.nameRun s).filterMap fun hit =>
    (List.lookup hit.value renamed).map fun name => ⟨hit.start, hit.stop, name⟩

/-- `RenameByConstructor`: the text with variables named after the objects they hold. -/
def describe (constructors : List Constructor) (names : Registry) (s : Text) :
    Outcome (Text × Registry) (Text × Registry) := do
  let ds ← extractOrFail (s, names) s
  let (renamed, names) := renames constructors ds [] (reserveOthers constructors ds names)
  let s ← reviseOrAbort s (renameEdits renamed s)
  return (s, names)

end ActionLog.Pass
