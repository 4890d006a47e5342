import ActionLog.Text.Scan

/-!
# Literals of recorded code

* `quotedPattern`, `firstQuoted?` — strings between two equal quotes; there are no escapes;
* `isNumber`, `isLiteral` — numbers, strings and truth values.
-/

namespace ActionLog.Text

/-- The contents of a string that starts here, up to the next quote of the same kind. -/
def quotedPattern : Pattern Text := fun _ rest =>
  match rest with
  | [] => none
  | q :: s =>
    if (q == Byte.doubleQuote || q == Byte.singleQuote) && s.contains q then
      let content := s.takeWhile (· != q)
      some (content.length + 2, content)
    else none

/-- The contents of the first quoted string. -/
def firstQuoted? (s : Text) : Option Text := (find? .byte quotedPattern s).map (·.value)

/-- One digit or more. -/
def isDigits (s : Text) : Bool := s != [] && s.all Byte.isDigit

/-- A number: digits, a fraction, or both, after an optional minus sign. -/
def isNumber (s : Text) : Bool :=
  let unsigned := (after? [Byte.minus] s).getD s
  let whole := unsigned.takeWhile Byte.isDigit
  match unsigned.dropWhile Byte.isDigit with
  | [] => whole != []
  | b :: fraction => b == Byte.dot && isDigits fraction

/-- A string between two quotes `q`, without a third. -/
def isQuotedBy (q : UInt8) (s : Text) : Bool :=
  match s with
  | b :: rest => b == q && rest.getLast? == some q && rest.dropLast.all (· != q)
  | [] => false

/-- A number, a string or a truth value. -/
def isLiteral (s : Text) : Bool :=
  isNumber s || isQuotedBy Byte.doubleQuote s || isQuotedBy Byte.singleQuote s ||
  s == utf8 "true" || s == utf8 "false"

end ActionLog.Text
