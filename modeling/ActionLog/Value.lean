import ActionLog.Text.Double

/-!
# Values of settings

A document gives settings as values of a few kinds; a setting is a switch, an integer or a text, and
reads values of other kinds where that makes sense.

* `Value` — what a document can give; collections and points in time are not told apart;
* `Value.toBool?`, `Value.toInt?`, `Value.toText?` — a value as a setting of a kind.
-/

namespace ActionLog

/-- What a document can give for a setting. -/
inductive Value where
  | nothing
  | bool (b : Bool)
  | int (n : Int)
  | number (x : Double)
  | text (s : Text)
  | other
  deriving DecidableEq, Repr

namespace Value

/-- A switch: a truth value, or a number that is zero or not. -/
def toBool? (default : Bool) : Value → Option Bool
  | .nothing => some default
  | .bool b => some b
  | .int n => some (n != 0)
  | .number x => some !x.isZero
  | .text s => if s == [] then some false else Text.parseBool? s
  | .other => none

/-- An integer of 64 bits; larger ones wrap around, and numbers lose their fraction. -/
def toInt? (default : Int) : Value → Option Int
  | .nothing => some default
  | .bool b => some (if b then 1 else 0)
  | .int n => some (n.bmod Text.wordCount)
  | .number x => some x.truncate
  | .text s => if s == [] then some 0 else (Text.parseInt s).toOption
  | .other => none

/-- A text; other values are written out. -/
def toText? (default : Text) : Value → Option Text
  | .nothing => some default
  | .bool b => some (utf8 (if b then "1" else "0"))
  | .int n => some (Text.signed n)
  | .number x => some x.render
  | .text s => some s
  | .other => none

end Value

end ActionLog
