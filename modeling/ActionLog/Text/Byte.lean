/-!
# Classes of bytes

The single-byte alphabet that recorded action code is read in.

* the named bytes `newline`, `semicolon`, … that the formats are built from;
* `isDigit`, `isWord`, `isName` — digits, word bytes, and word bytes with `$`;
* `isTabOrSpace`, `isGap` — blanks inside a line, and the five bytes that separate tokens.

Every byte from `0x80` on belongs to none of the classes, so the pieces of a multi-byte
character are never taken for a name or a gap.
-/

namespace ActionLog.Byte

abbrev tab : UInt8 := 0x09
abbrev newline : UInt8 := 0x0A
abbrev formFeed : UInt8 := 0x0C
abbrev carriageReturn : UInt8 := 0x0D
abbrev space : UInt8 := 0x20
abbrev doubleQuote : UInt8 := 0x22
abbrev dollar : UInt8 := 0x24
abbrev singleQuote : UInt8 := 0x27
abbrev openParen : UInt8 := 0x28
abbrev closeParen : UInt8 := 0x29
abbrev comma : UInt8 := 0x2C
abbrev minus : UInt8 := 0x2D
abbrev dot : UInt8 := 0x2E
abbrev semicolon : UInt8 := 0x3B
abbrev equals : UInt8 := 0x3D
abbrev underscore : UInt8 := 0x5F

/-- Decimal digits. -/
def isDigit (b : UInt8) : Bool := 0x30 ≤ b && b ≤ 0x39

/-- Letters of the basic alphabet. -/
def isLetter (b : UInt8) : Bool := (0x61 ≤ b && b ≤ 0x7A) || (0x41 ≤ b && b ≤ 0x5A)

/-- Letters, digits and the underscore. A word boundary lies between a word byte and another. -/
def isWord (b : UInt8) : Bool := isLetter b || isDigit b || b == underscore

/-- The bytes of an identifier: word bytes and the dollar sign. -/
def isName (b : UInt8) : Bool := isWord b || b == dollar

/-- Blanks that do not end a line. -/
def isTabOrSpace (b : UInt8) : Bool := b == space || b == tab

/-- The bytes that separate tokens: tab, newline, form feed, carriage return and space. -/
def isGap (b : UInt8) : Bool :=
  b == tab || b == newline || b == formFeed || b == carriageReturn || b == space

end ActionLog.Byte
