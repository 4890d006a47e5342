import ActionLog.Text.Basic

/-!
# Characters inside a text

UTF-8 read without assuming that a text is well-formed.

* `decode?` — the code point at the start of a text and its width, if a well-formed
  sequence stands there: no overlong forms, no surrogates, nothing above `0x10FFFF`;
* `width` — the number of bytes of what stands at the start of a text;
* `pieces` — a text as characters and stray bytes, each byte outside a well-formed sequence
  being a piece of its own;
* `isValid` — no stray bytes;
* `encode` — the bytes of a code point.
-/

namespace ActionLog.Text

/-- A character, or a byte that belongs to none. -/
inductive Piece where
  | char (code : Nat)
  | stray (byte : UInt8)
  deriving DecidableEq, Repr

namespace Utf8

/-- The code point that stands for everything that is no character. -/
def replacement : Nat := 0xFFFD

/-- Bytes that continue a sequence. -/
def isTail (b : UInt8) : Bool := 0x80 ≤ b && b ≤ 0xBF

/-- The lead bytes of two-byte sequences. -/
def leadsTwo (a : UInt8) : Bool := 0xC2 ≤ a && a ≤ 0xDF

/-- The first two bytes of three-byte sequences, overlong forms and surrogates left out. -/
def leadsThree (a b : UInt8) : Bool :=
  (a == 0xE0 && 0xA0 ≤ b && b ≤ 0xBF) || (0xE1 ≤ a && a ≤ 0xEC && isTail b) ||
  (a == 0xED && 0x80 ≤ b && b ≤ 0x9F) || (0xEE ≤ a && a ≤ 0xEF && isTail b)

/-- The first two bytes of four-byte sequences, overlong and too large ones left out. -/
def leadsFour (a b : UInt8) : Bool :=
  (a == 0xF0 && 0x90 ≤ b && b ≤ 0xBF) || (0xF1 ≤ a && a ≤ 0xF3 && isTail b) ||
  (a == 0xF4 && 0x80 ≤ b && b ≤ 0x8F)

/-- The six bits that a continuing byte carries. -/
def low (b : UInt8) : Nat := b.toNat - 0x80

/-- The code point at the start of the text and the number of its bytes. -/
def decode? : Text → Option (Nat × Nat)
  | [] => none
  | [a] => if a < 0x80 then some (a.toNat, 1) else none
  | [a, b] =>
    if a < 0x80 then some (a.toNat, 1)
    else if leadsTwo a && isTail b then some ((a.toNat - 0xC0) * 64 + low b, 2)
    else none
  | [a, b, c] =>
    if a < 0x80 then some (a.toNat, 1)
    else if leadsTwo a && isTail b then some ((a.toNat - 0xC0) * 64 + low b, 2)
    else if leadsThree a b && isTail c then
      some (((a.toNat - 0xE0) * 64 + low b) * 64 + low c, 3)
    else none
  | a :: b :: c :: d :: _ =>
    if a < 0x80 then some (a.toNat, 1)
    else if leadsTwo a && isTail b then some ((a.toNat - 0xC0) * 64 + low b, 2)
    else if leadsThree a b && isTail c then
      some (((a.toNat - 0xE0) * 64 + low b) * 64 + low c, 3)
    else if leadsFour a b && isTail c && isTail d then
      some ((((a.toNat - 0xF0) * 64 + low b) * 64 + low c) * 64 + low d, 4)
    else none

/-- The number of bytes of the character at the start of a text; a stray byte counts by itself. -/
def width (s : Text) : Nat := ((decode? s).map (·.2)).getD 1

/-- The pieces of a text after its first `skip` bytes. -/
def piecesFrom : (skip : Nat) → Text → List Piece
  | _, [] => []
  | skip + 1, _ :: s => piecesFrom skip s
  | 0, b :: s =>
    match decode? (b :: s) with
    | some (code, width) => .char code :: piecesFrom (width - 1) s
    | none => .stray b :: piecesFrom 0 s

/-- The bytes of a code point. -/
def encode (code : Nat) : Text :=
  if code < 0x80 then [code.toUInt8]
  else if code < 0x800 then [(0xC0 + code / 64).toUInt8, (0x80 + code % 64).toUInt8]
  else if code < 0x10000 then
    [(0xE0 + code / 4096).toUInt8, (0x80 + code / 64 % 64).toUInt8, (0x80 + code % 64).toUInt8]
  else
    [(0xF0 + code / 262144).toUInt8, (0x80 + code / 4096 % 64).toUInt8,
     (0x80 + code / 64 % 64).toUInt8, (0x80 + code % 64).toUInt8]

end Utf8

/-- The text as characters and stray bytes. -/
def pieces (s : Text) : List Piece := Utf8.piecesFrom 0 s

/-- The code point a piece is read as: a stray byte counts as the replacement character. -/
def Piece.code : Piece → Nat
  | .char c => c
  | .stray _ => Utf8.replacement

/-- The bytes that a piece stands for. -/
def Piece.bytes : Piece → Text
  | .char c => Utf8.encode c
  | .stray b => [b]

/-- Whether the piece is a byte outside every character. -/
def Piece.isStray : Piece → Bool
  | .char _ => false
  | .stray _ => true

/-- Whether the text is well-formed UTF-8. -/
def isValid (s : Text) : Bool := (pieces s).all fun p => !p.isStray

/-- The rest of the text from its first stray byte on. -/
def fromStray (s : Text) : Text :=
  s.drop (((pieces s).takeWhile fun p => !p.isStray).flatMap Piece.bytes).length

end ActionLog.Text
