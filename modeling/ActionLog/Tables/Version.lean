import ActionLog.Text.Literal

/-!
# Versions of tables

Versions are written `v1.2.3-pre+build`.  The second and third numbers may be left out, together
with everything after them; numbers have no leading zeros.

* `isVersionNumber`, `isVersionWords` — the parts of a version;
* `majorVersion?` — the first number of a well-formed version.
-/

namespace ActionLog.Tables

/-- Digits without a leading zero. -/
def isVersionNumber (s : Text) : Bool :=
  Text.isDigits s && (s.head? != some 0x30 || s.length == 1)

/-- One or more letters, digits and hyphens. -/
def isVersionWord (s : Text) : Bool :=
  s != [] && s.all fun b => Byte.isLetter b || Byte.isDigit b || b == Byte.minus

/-- Words between dots; where `strict` is set, words of digits are numbers. -/
def isVersionWords (strict : Bool) (s : Text) : Bool :=
  (List.splitOn Byte.dot s).all fun w =>
    isVersionWord w && (!strict || !w.all Byte.isDigit || isVersionNumber w)

/-- What may follow the third number: a pre-release after a hyphen, and a build after a plus. -/
def isVersionEnd (s : Text) : Bool :=
  let plus : UInt8 := 0x2B
  let pre := s.takeWhile (· != plus)
  let build := s.dropWhile (· != plus)
  (match pre with
    | [] => true
    | b :: words => b == Byte.minus && isVersionWords true words) &&
  match build with
  | [] => true
  | _ :: words => isVersionWords false words

/-- The first number of a well-formed version. -/
def majorVersion? (s : Text) : Option Text := do
  let s ← Text.after? (utf8 "v") s
  let major := s.takeWhile Byte.isDigit
  if !isVersionNumber major then none
  else
    match s.dropWhile Byte.isDigit with
    | [] => some major
    | b :: s =>
      if b != Byte.dot || !isVersionNumber (s.takeWhile Byte.isDigit) then none
      else
        match s.dropWhile Byte.isDigit with
        | [] => some major
        | c :: s =>
          if c == Byte.dot && isVersionNumber (s.takeWhile Byte.isDigit) &&
              isVersionEnd (s.dropWhile Byte.isDigit) then some major
          else none

end ActionLog.Tables
