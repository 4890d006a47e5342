import ActionLog.Text.Blank
import ActionLog.Text.Utf8

/-!
# Environment variables and the files that set them

* `Environment` — variables with their values; a variable that is set may be empty;
* `Environment.ofFile?` — the variables that an environment file sets, one a line: `K=V`, `K: V` or
  `export K=V`, with or without quotes, and comments after `#`;
* `Environment.extend` — an environment with the variables of a file that are not set yet.
-/

namespace ActionLog.Command

/-- Variables with their values. -/
abbrev Environment := List (Text × Text)

namespace Environment

/-- Blanks inside a line of an environment file, as encoded characters. -/
def lineBlanks : List Text := [[0x20], [0x09], [0x0B], [0x0C], [0x0D], [0xC2, 0x85], [0xC2, 0xA0]]

/-- A text without blanks at its front. -/
def dropBlanks (s : Text) : Text := Text.stripStart lineBlanks s

/-- The text from the first statement on; blank lines and comments are passed over. -/
def nextStatement : (bound : Nat) → Text → Text
  | 0, s => s
  | bound + 1, s =>
    let s := Text.stripStart Text.blanks s
    if s.head? == some 0x23 then nextStatement bound (s.dropWhile (· != Byte.newline)) else s

/-- Bytes of a name that are read as letters or numbers, each on its own. -/
def isNameByte (b : UInt8) : Bool :=
  Byte.isLetter b || Byte.isDigit b || b == Byte.underscore || b == Byte.dot ||
  [0xAA, 0xB2, 0xB3, 0xB5, 0xB9, 0xBA, 0xBC, 0xBD, 0xBE].contains b ||
  (0xC0 ≤ b && b != 0xD7 && b != 0xF7)

/-- Bytes that may stand around a name. -/
def isNameBlank (b : UInt8) : Bool :=
  [0x20, 0x09, 0x0B, 0x0C, 0x0D, 0x85, 0xA0].contains b

/-- The statement without the word that exports it. -/
def dropExport (s : Text) : Text :=
  match Text.after? (utf8 "export") s with
  | some r => if (dropBlanks r).length < r.length then dropBlanks r else s
  | none => s

/-- The name of a statement, which is not empty, and the text after its mark.  A statement without a
mark has the empty name. -/
def splitName? (s : Text) : Option (Text × Text) :=
  let isMark (b : UInt8) : Bool := b == Byte.equals || b == 0x3A
  let name := s.takeWhile fun b => !isMark b
  if s != [] && name.all fun b => isNameByte b || isNameBlank b then
    if name.length < s.length then
      some (Text.stripEnd Text.blanks name, dropBlanks (s.drop (name.length + 1)))
    else some ([], dropBlanks s)
  else none

/-- The letters of names that values may refer to. -/
def isReferenceByte (b : UInt8) : Bool :=
  (0x41 ≤ b && b ≤ 0x5A) || Byte.isDigit b || b == Byte.underscore

/-- A text without a byte at its front, if it is there. -/
def dropByte (b : UInt8) (s : Text) : Text := (Text.after? [b] s).getD s

/-- The value with its references `$NAME` and `${NAME}` replaced; a backslash keeps one from
being replaced. -/
def expand (vars : Environment) : (bound : Nat) → Text → Text
  | 0, s => s
  | _ + 1, [] => []
  | bound + 1, b :: s =>
    if b == 0x5C && s.head? == some Byte.dollar then
      let name := dropByte 0x7B (dropByte Byte.openParen (s.drop 1))
      let rest := dropByte 0x7D (name.dropWhile isReferenceByte)
      s.take (s.length - rest.length) ++ expand vars bound rest
    else if b == Byte.dollar then
      let name := dropByte 0x7B (dropByte Byte.openParen s)
      let word := name.takeWhile isReferenceByte
      let rest := dropByte 0x7D (name.dropWhile isReferenceByte)
      (if word == [] then b :: s.take (s.length - rest.length)
        else (List.lookup word vars.reverse).getD []) ++ expand vars bound rest
    else b :: expand vars bound s

/-- The two line ends that may be written after a backslash. -/
def unescapeLineEnds : Text → Text
  | b :: c :: s =>
    if b == 0x5C && c == 0x6E then Byte.newline :: unescapeLineEnds s
    else if b == 0x5C && c == 0x72 then Byte.carriageReturn :: unescapeLineEnds s
    else if b == 0x5C && c != Byte.newline then b :: c :: unescapeLineEnds s
    else b :: unescapeLineEnds (c :: s)
  | s => s

/-- The text without the backslashes before other bytes than the dollar sign. -/
def unescape : Text → Text
  | b :: c :: s =>
    if b == 0x5C && c != Byte.dollar then c :: unescape s else b :: unescape (c :: s)
  | s => s

/-- The number of characters before the comment of a line, if it has one: the comment starts at the
last `#` that follows a blank.  `here` characters precede the text, and `before` is the last of
them. -/
def commentStart? (here : Nat) (before : Option Text.Piece) : List Text.Piece → Option Nat
  | [] => none
  | c :: rest =>
    (commentStart? (here + 1) (some c) rest).or
      (if c.code = 0x23 && before.any fun b => lineBlanks.contains b.bytes then some here else none)

/-- A value without quotes: up to the end of its line or to a comment.  It is read as characters, so
stray bytes become replacement characters. -/
def plainValue (vars : Environment) (s : Text) : Text × Text :=
  let line := s.takeWhile fun b => b != Byte.newline && b != Byte.carriageReturn
  let rest := s.drop line.length
  let characters := Text.pieces line
  let code := characters.take ((commentStart? 0 none characters).getD characters.length)
  let value := Text.stripEnd lineBlanks
    (dropBlanks (code.flatMap fun c => Text.Utf8.encode c.code))
  (expand vars value.length value, rest)

/-- The bytes up to the next quote that no backslash precedes, and the text after it. -/
def closeQuote? (quote before : UInt8) : Text → Option (Text × Text)
  | [] => none
  | b :: s =>
    if b == quote && before != 0x5C then some ([], s)
    else (closeQuote? quote b s).map fun (t, r) => (b :: t, r)

/-- The value of a statement and the text after it. -/
def value? (vars : Environment) (s : Text) : Option (Text × Text) :=
  match s with
  | q :: r =>
    if q == Byte.doubleQuote then
      (closeQuote? q q r).map fun (t, r) =>
        let t := unescape (unescapeLineEnds (Text.trimBy (· == q) t))
        (expand vars t.length t, r)
    else if q == Byte.singleQuote then
      (closeQuote? q q r).map fun (t, r) => (Text.trimBy (· == q) t, r)
    else some (plainValue vars s)
  | [] => some ([], [])

/-- The variables that statements set, in order, after those set before. -/
def statements? : (bound : Nat) → Environment → Text → Option Environment
  | 0, vars, _ => some vars
  | bound + 1, vars, s =>
    match nextStatement s.length s with
    | [] => some vars
    | s => do
      let (name, r) ← splitName? (dropExport (dropBlanks s))
      let (value, r) ← value? vars r
      statements? bound (vars ++ [(name, value)]) r

/-- The variables that an environment file sets; none if a statement is malformed. -/
def ofFile? (s : Text) : Option Environment :=
  statements? (s.length + 1) [] (Text.unixLines s)

/-- The environment with the variables that a file sets and that are not set yet; the file's last
setting of a variable counts. -/
def extend (env file : Environment) : Environment :=
  env ++ (file.reverse.filter fun (name, _) => (List.lookup name env).isNone)

/-- The value of a variable; empty values count as unset, and values that hold a NUL cannot be
set. -/
def get? (env : Environment) (name : Text) : Option Text :=
  (List.lookup name env).filter fun value => value != [] && !value.contains 0x00

end Environment

end ActionLog.Command
