import ActionLog.Name.Registry
import ActionLog.Pass.Error
import ActionLog.Text.Literal

/-!
# Values lifted into parameters

A setter call such as `d.putDouble( s2t( "width" ), 500 )` sets a key to a value.  Where the value
is a literal it becomes a parameter named after the key.

* `Parameter` — the name of a parameter and the literal it stands for;
* `setterCall` — the pattern of a setter call up to its opening parenthesis;
* `Setting`, `setting?` — the key of a line's setter call and the place of its literal;
* `liftParameters` — a text with its literals lifted, and the parameters in order
  (`ExtractParameters`); it aborts on a setter that is not valid text.
-/

namespace ActionLog.Pass

/-- A parameter of a function and the value it is called with. -/
structure Parameter where
  name : Text
  value : Text
  deriving DecidableEq, Repr

/-- A dot, the first fitting setter of the list, and an opening parenthesis. -/
def setterCall (setters : List Text) : Text.Pattern Unit := fun _ rest => do
  let s ← Text.after? [Byte.dot] rest
  setters.findSome? fun setter => do
    let n ← Text.literal? setter s
    let args ← Text.after? [Byte.openParen] ((s.drop n).dropWhile Byte.isGap)
    return (rest.length - args.length, ())

/-- The key of a setter call and the literal it is set to, which takes the bytes of its line from
`start` up to `stop`. -/
structure Setting where
  key : Text
  value : Text
  start : Nat
  stop : Nat
  deriving DecidableEq, Repr

/-- The offset of the last byte equal to `b`. -/
def lastIndex? (b : UInt8) (s : Text) : Option Nat := (Text.cutLast b s).map (·.1.length)

/-- The setting that a line makes.  Its key is the first quoted string of the call, its value the
text between the last comma and the last parenthesis of the line. -/
def setting? (setters : List Text) (ignored : Text → Bool) (line : Text) : Option Setting := do
  let call ← Text.find? .char (setterCall setters) line
  let paren ← lastIndex? Byte.closeParen line
  let comma ← lastIndex? Byte.comma (line.take paren)
  if paren < call.stop || comma < call.stop then none
  else
    let key ← Text.firstQuoted? ((line.take comma).drop call.stop)
    let argument := (line.take paren).drop (comma + 1)
    let start := comma + 1 + (argument.takeWhile Byte.isTabOrSpace).length
    let value := Text.trimBy Byte.isTabOrSpace argument
    if key == [] || ignored key || !Text.isLiteral value then none
    else some ⟨key, value, start, start + value.length⟩

/-- The edits that lift the literals of lines, the first of which starts at `offset`; with the
parameters, and the registry in which their names are taken. -/
def liftLines (setters : List Text) (ignored : Text → Bool) :
    (offset : Nat) → List Text → Registry → List Edit × List Parameter × Registry
  | _, [], names => ([], [], names)
  | offset, line :: ls, names =>
    let next := offset + line.length + 1
    match setting? setters ignored line with
    | none => liftLines setters ignored next ls names
    | some x =>
      let (name, names) := names.allocate .parameters x.key
      let (edits, params, names) := liftLines setters ignored next ls names
      (⟨offset + x.start, offset + x.stop, name⟩ :: edits, ⟨name, x.value⟩ :: params, names)

/-- `setterCall` as it is written. -/
def setterCallSource (setters : List Text) : Text :=
  utf8 "\\.(?:" ++ (utf8 "|").intercalate (setters.map Abort.escapeName) ++ utf8 ")\\s*\\("

/-- `ExtractParameters`: the text with its literals lifted into parameters, and the parameters.  If a
setter cannot be searched for, no name is taken. -/
def liftParameters (setters : List Text) (ignored : Text → Bool) (names : Registry) (s : Text) :
    Outcome (Text × List Parameter × Registry) (Text × List Parameter × Registry) :=
  if !setters.all Text.isValid then .error (.aborted (.pattern (setterCallSource setters)))
  else do
    let (edits, params, names) := liftLines setters ignored 0 (Text.lines s) names
    let s ← reviseOrAbort s edits
    return (s, params, names)

end ActionLog.Pass
