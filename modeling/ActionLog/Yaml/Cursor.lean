import ActionLog.Text.Utf8

/-!
# Reading the characters of a document

A document is a text in UTF-8, or in UTF-16 after a byte-order mark.  It is read in portions of at
most `portionSize` bytes, each when its first character is needed, so a malformed character spoils
what is read from the start of its portion on, and nothing before.

* `Source` — the characters of a document with the sizes of the portions, and `Source.ofText`;
* `Cursor` — a place in a document: the characters to come and where the place is;
* `Scan` — readers that move a cursor and may fail;
* `need`, `skip`, `skipBreak` — the steps of a cursor.
-/

namespace ActionLog.Yaml

/-- The encodings of documents. -/
inductive Encoding where
  | utf8
  | utf16 (bigEndian : Bool)
  deriving DecidableEq, Repr

namespace Encoding

/-- The encoding of a text, and the text after its byte-order mark. -/
def ofText (s : Text) : Encoding × Text :=
  match s with
  | 0xFF :: 0xFE :: r => (.utf16 false, r)
  | 0xFE :: 0xFF :: r => (.utf16 true, r)
  | 0xEF :: 0xBB :: 0xBF :: r => (.utf8, r)
  | _ => (.utf8, s)

/-- The unit of sixteen bits at the start of a text. -/
def unit (bigEndian : Bool) : Text → Nat
  | a :: b :: _ => if bigEndian then a.toNat * 256 + b.toNat else b.toNat * 256 + a.toNat
  | _ => 0

/-- How many bytes the character at the start of a text has by its first ones; none if no character
starts so. -/
def width? (e : Encoding) (s : Text) : Option Nat :=
  match e, s with
  | _, [] => none
  | .utf8, b :: _ =>
    if b < 0x80 then some 1
    else if 0xC0 ≤ b && b < 0xE0 then some 2
    else if 0xE0 ≤ b && b < 0xF0 then some 3
    else if 0xF0 ≤ b && b < 0xF8 then some 4
    else none
  | .utf16 bigEndian, _ :: rest =>
    if rest.isEmpty then some 2
    else
      let first := unit bigEndian s
      if 0xD800 ≤ first && first < 0xDC00 then some 4
      else if 0xDC00 ≤ first && first < 0xE000 then none
      else some 2

/-- The code point of the character at the start of a text, all of whose bytes are there. -/
def code? (e : Encoding) (s : Text) : Option Nat :=
  match e with
  | .utf8 => (Text.Utf8.decode? s).map (·.1)
  | .utf16 bigEndian =>
    let first := unit bigEndian s
    if 0xD800 ≤ first && first < 0xDC00 then
      let second := unit bigEndian (s.drop 2)
      if 0xDC00 ≤ second && second < 0xE000 then
        some (0x10000 + (first - 0xD800) * 1024 + (second - 0xDC00))
      else none
    else some first

end Encoding

/-- Whether a character may stand in a document. -/
def isAllowed (code : Nat) : Bool :=
  code = 0x09 || code = 0x0A || code = 0x0D || code = 0x85 || (0x20 ≤ code && code ≤ 0x7E) ||
  (0xA0 ≤ code && code ≤ 0xD7FF) || (0xE000 ≤ code && code ≤ 0xFFFD) ||
  (0x10000 ≤ code && code ≤ 0x10FFFF)

/-- The characters of a document up to the first malformed portion.  `sizes` are the numbers of
characters in the portions. -/
structure Source where
  chars : List Char
  sizes : List Nat
  malformed : Bool

namespace Source

/-- The number of bytes in a portion. -/
def portionSize : Nat := 512

/-- One portion: its characters, the last first, and the text after it.  A character that does not
fit starts the next portion. -/
def portion? (e : Encoding) : (fuel room : Nat) → List Char → Text → Option (List Char × Text)
  | 0, _, chars, s => some (chars, s)
  | fuel + 1, room, chars, s =>
    if s.isEmpty then some (chars, s)
    else do
      let width ← e.width? s
      if room < width || (s.drop (width - 1)).isEmpty then return (chars, s)
      else
        let code ← e.code? s
        if isAllowed code then
          portion? e fuel (room - width) (Char.ofNat code :: chars) (s.drop width)
        else none

/-- The portions of a text, of which there are at most `fuel`.  A text that ends inside a character
is malformed there. -/
def portions (e : Encoding) : (fuel room : Nat) → Text → Source
  | 0, _, _ => ⟨[], [], false⟩
  | fuel + 1, room, s =>
    if s.isEmpty then ⟨[], [], false⟩
    else
      match portion? e room room [] s with
      | none | some ([], _) => ⟨[], [], true⟩
      | some (chars, rest) =>
        let later := portions e fuel portionSize rest
        ⟨chars.reverse ++ later.chars, chars.length :: later.sizes, later.malformed⟩

/-- The characters of a text.  The byte-order mark belongs to the first portion. -/
def ofText (s : Text) : Source :=
  let (e, r) := Encoding.ofText s
  portions e (r.length + 1) (portionSize - (s.length - r.length)) r

end Source

/-- Blanks inside a line. -/
def isBlank (c : Char) : Bool := c = ' ' || c = '\t'

/-- Characters that end a line. -/
def isBreak (c : Char) : Bool :=
  c = '\n' || c = '\r' || c = '\u0085' || c = '\u2028' || c = '\u2029'

/-- The byte-order mark. -/
def byteOrderMark : Char := '\ufeff'

/-- A place in a document. -/
structure Cursor where
  /-- The number of characters of the document, which bounds all loops over it. -/
  bound : Nat
  /-- The characters to come. -/
  rest : List Char
  /-- How many of them are in portions that were read. -/
  loaded : Nat
  /-- The sizes of the portions that were not read. -/
  sizes : List Nat
  /-- Whether a malformed portion follows them. -/
  malformed : Bool
  /-- Whether a byte-order mark was the next character when a portion was read last. -/
  marked : Bool
  /-- Whether nothing but blanks came after the last line break. -/
  fresh : Bool
  index : Nat
  line : Nat
  column : Nat

namespace Cursor

/-- The start of a document. -/
def start (s : Source) : Cursor :=
  ⟨s.chars.length, s.chars, 0, s.sizes, s.malformed, false, false, 0, 0, 0⟩

/-- Whether the document ends here. -/
def atEnd (c : Cursor) : Bool := c.rest.isEmpty

/-- Whether a blank, a line break or the end comes `k` characters from here. -/
def gapAt (c : Cursor) (k : Nat) : Bool := (c.rest[k]?).all fun x => isBlank x || isBreak x

/-- Whether a blank or a line break comes next. -/
def inGap (c : Cursor) : Bool := c.rest.head?.any fun x => isBlank x || isBreak x

/-- Whether a character comes next. -/
def sees (c : Cursor) (x : Char) : Bool := c.rest.head? == some x

/-- Whether a line starts here with a mark of three characters before a gap. -/
def seesMark (c : Cursor) (mark : List Char) : Bool :=
  c.column = 0 && c.rest.take 3 == mark && c.gapAt 3

/-- Whether a line starts here that ends the document. -/
def seesMarker (c : Cursor) : Bool :=
  c.seesMark ['-', '-', '-'] || c.seesMark ['.', '.', '.']

/-- Reads portions until `k` characters are there, or all that there are. -/
def load (k : Nat) : (sizes : List Nat) → Cursor → Option Cursor
  | [], c => if c.malformed then none else some { c with loaded := c.loaded + 1, sizes := [] }
  | n :: sizes, c =>
    let c := { c with loaded := c.loaded + n, sizes := sizes }
    if k ≤ c.loaded then some c else load k sizes c

end Cursor

/-- Readers of a document. -/
abbrev Scan := StateT Cursor Option

/-- Sees to it that the next `k` characters are there; fails if a malformed portion is among
them. -/
def need (k : Nat) : Scan Unit := do
  let c ← get
  if c.loaded < k then
    set (← Cursor.load k c.sizes { c with marked := c.sees byteOrderMark })

/-- Passes over one character. -/
def skip : Scan Unit := modify fun c =>
  { c with
    rest := c.rest.drop 1, loaded := c.loaded - 1, index := c.index + 1, column := c.column + 1
    fresh := c.fresh && c.rest.head?.any isBlank }

/-- Passes over several characters. -/
def skipMany : Nat → Scan Unit
  | 0 => return
  | n + 1 => do need 1; skip; skipMany n

/-- Passes over a line break and gives what it reads as: the separators of lines and paragraphs
stand for themselves, all others for a newline. -/
def skipBreak : Scan (List Char) := do
  need 2
  let c ← get
  match c.rest with
  | [] => return []
  | x :: r =>
    let width := if x = '\r' && r.head? == some '\n' then 2 else 1
    set { c with
      rest := c.rest.drop width, loaded := c.loaded - width, index := c.index + width
      line := c.line + 1, column := 0, fresh := true }
    return [if x = '\u2028' || x = '\u2029' then x else '\n']

/-- Passes over characters of a text while they satisfy a test, and gives them. -/
def takeFrom (p : Char → Bool) : List Char → Scan (List Char)
  | [] => do need 1; return []
  | x :: r => do
    need 1
    if p x then
      skip
      return x :: (← takeFrom p r)
    else return []

/-- Passes over the characters that satisfy a test, and gives them. -/
def takeAll (p : Char → Bool) : Scan (List Char) := do takeFrom p (← get).rest

end ActionLog.Yaml
