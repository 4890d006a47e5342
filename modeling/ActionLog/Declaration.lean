import ActionLog.Text.Blank
import ActionLog.Text.Decimal

/-!
# Declarations

A declaration is one line `var name = value;`.  Lines are looked at one by one; a declaration
spread over several lines is not seen as one.

* `isDeclaration` — the lines that count as declarations;
* `nameOf`, `valueOf` — the text before and after the first equals sign, trimmed;
* `Declaration.parse?` — both halves, if neither is missing;
* `rename` — a line with another declared name and all else kept;
* `declarations` — the declarations of a text, up to the first line that has no two halves;
* `extract` — all of them, or the line that is at fault.
-/

namespace ActionLog

/-- `decl.Declaration`: a declaration line and its two halves. -/
structure Declaration where
  name : Text
  value : Text
  line : Text
  deriving DecidableEq, Repr

/-- `LineError`: a declaration line without a name or a value, and its number counted from one. -/
structure BadLine where
  number : Nat
  text : Text
  deriving DecidableEq, Repr

/-- What is wrong with a declaration that cannot be split. -/
def BadLine.complaint : Text := utf8 "malformed declaration"

/-- The complaint about a line, with its number. -/
def BadLine.message (e : BadLine) : Text :=
  utf8 "line " ++ Text.decimal e.number ++ utf8 ": " ++ BadLine.complaint ++ utf8 ": " ++ e.text

namespace Declaration

/-- The word that starts a declaration. -/
def keyword : Text := utf8 "var"

/-- What follows the keyword at the start of a line, blanks before it left out. -/
def afterKeyword? (line : Text) : Option Text :=
  Text.after? keyword (line.dropWhile Byte.isTabOrSpace)

/-- Whether a text stays on one line and ends with a semicolon, blanks after it left out. -/
def endsStatement (s : Text) : Bool :=
  s.all (· != Byte.newline) && (s.reverse.dropWhile Byte.isTabOrSpace).head? == some Byte.semicolon

/-- `IsDeclaration`: the line has the keyword, a gap, and a semicolon at the end. -/
def isDeclaration (line : Text) : Bool :=
  match afterKeyword? line with
  | some (b :: rest) => Byte.isGap b && endsStatement rest
  | _ => false

/-- The text before the first equals sign. -/
def head (line : Text) : Text := line.takeWhile (· != Byte.equals)

/-- The text after the first equals sign. -/
def tail (line : Text) : Text := (line.dropWhile (· != Byte.equals)).drop 1

/-- `Name`: the declared name, that is the text before the first equals sign, without the
keyword. -/
def nameOf (line : Text) : Text :=
  let name := Text.trim (head line)
  Text.trim ((Text.after? keyword name).getD name)

/-- `Value`: the declared value, that is the text after the first equals sign, without the
semicolon. -/
def valueOf (line : Text) : Text :=
  Text.trim (Text.dropEnd [Byte.semicolon] (Text.trim (tail line)))

/-- `Parse`: the two halves of a line, if it has an equals sign and neither half is empty. -/
def parse? (line : Text) : Option Declaration :=
  if line.contains Byte.equals && nameOf line != [] && valueOf line != [] then
    some ⟨nameOf line, valueOf line, line⟩
  else none

/-- `Rename`: the line with its declared name replaced; a line that does not start like a
declaration with a value is kept. -/
def rename (line name : Text) : Text :=
  match afterKeyword? line with
  | none => line
  | some rest =>
    let named := rest.dropWhile Byte.isGap
    if rest.length = named.length || !named.contains Byte.equals then line
    else
      let start := line.length - named.length
      let old := Text.trimEndBy Byte.isGap (head named)
      line.take start ++ name ++ named.drop old.length

/-- `Lines`: the declaration lines of a text. -/
def declarationLines (s : Text) : List Text := (Text.lines s).filter isDeclaration

/-- The declarations among numbered lines, up to the first that cannot be split. -/
def scanLines : (number : Nat) → List Text → List Declaration × Option BadLine
  | _, [] => ([], none)
  | number, line :: ls =>
    if isDeclaration line then
      match parse? line with
      | some d =>
        let (ds, bad) := scanLines (number + 1) ls
        (d :: ds, bad)
      | none => ([], some ⟨number, line⟩)
    else scanLines (number + 1) ls

/-- The declarations of a text in order, up to the first that cannot be split. -/
def scan (s : Text) : List Declaration × Option BadLine := scanLines 1 (Text.lines s)

/-- `Extract`: the declarations of a text in order, or the first line that cannot be split. -/
def extract (s : Text) : Except BadLine (List Declaration) :=
  match scan s with
  | (ds, none) => .ok ds
  | (_, some bad) => .error bad

end Declaration

end ActionLog
