import ActionLog.Text.Basic

/-!
# White space at the ends of a text

The white space of Unicode, as the byte sequences that encode it.  A sequence counts only when it
is complete, so a lone `0x85` or `0xA0` is not white space.

* `blanks` — the twenty-five encodings;
* `stripStart` — a text without the marks of a list at its front;
* `trim` — a text without white space at either end.
-/

namespace ActionLog.Text

/-- The encodings of the white space characters. -/
def blanks : List Text :=
  [[0x20], [0x0A], [0x09], [0x0D], [0x0B], [0x0C],
   [0xC2, 0x85], [0xC2, 0xA0],
   [0xE1, 0x9A, 0x80],
   [0xE2, 0x80, 0x80], [0xE2, 0x80, 0x81], [0xE2, 0x80, 0x82], [0xE2, 0x80, 0x83],
   [0xE2, 0x80, 0x84], [0xE2, 0x80, 0x85], [0xE2, 0x80, 0x86], [0xE2, 0x80, 0x87],
   [0xE2, 0x80, 0x88], [0xE2, 0x80, 0x89], [0xE2, 0x80, 0x8A],
   [0xE2, 0x80, 0xA8], [0xE2, 0x80, 0xA9], [0xE2, 0x80, 0xAF],
   [0xE2, 0x81, 0x9F], [0xE3, 0x80, 0x80]]

/-- The text without the `marks` that stand at its front, one after another. -/
def stripStart (marks : List Text) (s : Text) : Text :=
  match marks.findSome? (·.isPrefixOf? s) with
  | some r => if r.length < s.length then stripStart marks r else s
  | none => s
termination_by s.length

/-- The text without the `marks` that stand at its end. -/
def stripEnd (marks : List Text) (s : Text) : Text :=
  (stripStart (marks.map List.reverse) s.reverse).reverse

/-- The text without white space at either end. -/
def trim (s : Text) : Text := stripEnd blanks (stripStart blanks s)

end ActionLog.Text
