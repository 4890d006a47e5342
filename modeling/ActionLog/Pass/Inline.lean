import ActionLog.Pass.Construction
import ActionLog.Pass.Error
import ActionLog.Text.Scan

/-!
# Variables replaced by their values

A variable that is passed as an argument, that is, followed by a comma or a closing parenthesis, is
replaced by its value there, and its declaration is dropped.  Variables that hold objects stay.

* `uses` — the places where a name is passed as an argument;
* `inlineEdits` — the edits that put a value there, the declarations of the name left out;
* `inline` — a text with one variable inlined;
* `consolidate` — all declared variables, each with the value it has when its turn comes
  (`Consolidate`).
-/

namespace ActionLog.Pass

/-- The name `name` passed as an argument, and whether it is the tail of a longer identifier. -/
def usePattern (name : Text) : Text.Pattern Bool := fun before rest => do
  let n ← Text.literal? name rest
  let gap := ((rest.drop n).takeWhile Byte.isGap).length
  let after ← (rest.drop (n + gap)).head?
  if after == Byte.comma || after == Byte.closeParen then
    some (n + gap + 1, before.any Byte.isName)
  else none

/-- `lineAt`: the line that holds the byte at an offset. -/
def lineAt (s : Text) (offset : Nat) : Text :=
  ((s.take offset).reverse.takeWhile (· != Byte.newline)).reverse ++
    (s.drop offset).takeWhile (· != Byte.newline)

/-- Whether a line declares a name. -/
def declares (name line : Text) : Bool :=
  Declaration.isDeclaration line && Declaration.nameOf line == name

/-- The edits that put the value of a declaration wherever its name is passed. -/
def inlineEdits (d : Declaration) (s : Text) : List Edit :=
  (Text.findAll .char (usePattern d.name) s).filterMap fun hit =>
    if hit.value || declares d.name (lineAt s hit.start) then none
    else some ⟨hit.start, hit.start + d.name.length, d.value⟩

/-- `usePattern` as it is written. -/
def useSource (name : Text) : Text := Abort.escapeName name ++ utf8 "\\s*[,)]"

/-- `inline`: the text with a variable inlined; if it is used anywhere, its declaration is
dropped. -/
def inline (d : Declaration) (s : Text) : Outcome Text Text :=
  if !Text.isValid d.name then .error (.aborted (.pattern (useSource d.name)))
  else
    match inlineEdits d s with
    | [] => .ok s
    | edits => do
      let revised ← reviseOrAbort s edits
      return Text.trimNewlines (Text.unlines ((Text.lines revised).filter (· != d.line)))

/-- `current`: the first declaration of a name in a text. -/
def current? (name s : Text) : Option Declaration :=
  ((Declaration.declarationLines s).find? (Declaration.nameOf · == name)).bind Declaration.parse?

/-- `Consolidate`: the text with the declared variables inlined, one after another. -/
def consolidate (s : Text) : Outcome Text Text := do
  let ds ← extractOrFail s s
  ds.foldlM (fun s d =>
    match current? d.name s with
    | some now => if isConstruction now.value then .ok s else inline now s
    | none => .ok s) s

end ActionLog.Pass
