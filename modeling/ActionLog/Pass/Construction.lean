import ActionLog.Text.Basic

/-!
# Values that make objects

A construction is a value such as `new ActionDescriptor()`: the keyword, a dotted name, and
arguments up to the end of the value.

* `constructorCall?` — the dotted name and what follows its opening parenthesis;
* `isConstruction` — whether a value is a construction as a whole.
-/

namespace ActionLog.Pass

/-- Bytes of a dotted name. -/
def isDottedName (b : UInt8) : Bool := Byte.isName b || b == Byte.dot

/-- The name after `new` and the text after the parenthesis that follows it. -/
def constructorCall? (value : Text) : Option (Text × Text) := do
  let rest ← Text.after? (utf8 "new") value
  let named := rest.dropWhile Byte.isGap
  let name := named.takeWhile isDottedName
  if named.length = rest.length || name == [] then none
  else
    let args ← Text.after? [Byte.openParen]
      ((named.dropWhile isDottedName).dropWhile Byte.isGap)
    return (name, args)

/-- `isConstructor`: whether a value is nothing but the construction of an object. -/
def isConstruction (value : Text) : Bool :=
  match constructorCall? value with
  | some (_, args) => args.all (· != Byte.newline) && args.getLast? == some Byte.closeParen
  | none => false

end ActionLog.Pass
