import ActionLog.Text.Utf8
import ActionLog.Text.Printable

/-!
# Quoted texts

Texts between double quotes, as messages show them.  Printable characters stand as they are; the
rest is escaped, so that a quoted text is one line of printable characters whatever its bytes.

* `escape` — one piece of a text;
* `quote` — a whole text.
-/

namespace ActionLog.Text

/-- The digit of a number below sixteen, in lower case. -/
def hexDigit (n : Nat) : UInt8 := if n < 10 then (0x30 + n).toUInt8 else (0x57 + n).toUInt8

/-- The last `width` hexadecimal digits of a number. -/
def hex : (width : Nat) → Nat → Text
  | 0, _ => []
  | width + 1, n => hex width (n / 16) ++ [hexDigit (n % 16)]

/-- A piece of a text as it stands between quotes.  Seven control characters, the quote and the
backslash have escapes of one letter; other control characters and stray bytes are written with
two digits, unprintable characters with four or eight. -/
def escape : Piece → Text
  | .stray b => utf8 "\\x" ++ hex 2 b.toNat
  | .char c =>
    if c = 0x22 then utf8 "\\\""
    else if c = 0x5C then utf8 "\\\\"
    else if isPrintable c then Utf8.encode c
    else if c = 0x07 then utf8 "\\a"
    else if c = 0x08 then utf8 "\\b"
    else if c = 0x0C then utf8 "\\f"
    else if c = 0x0A then utf8 "\\n"
    else if c = 0x0D then utf8 "\\r"
    else if c = 0x09 then utf8 "\\t"
    else if c = 0x0B then utf8 "\\v"
    else if c < 0x20 || c = 0x7F then utf8 "\\x" ++ hex 2 c
    else if c < 0x10000 then utf8 "\\u" ++ hex 4 c
    else utf8 "\\U" ++ hex 8 c

/-- The text between double quotes, on one line. -/
def quote (s : Text) : Text :=
  [Byte.doubleQuote] ++ (pieces s).flatMap escape ++ [Byte.doubleQuote]

end ActionLog.Text
