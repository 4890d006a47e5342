import ActionLog.Text.Blank

/-!
# One statement a line

`normalize` ends a line after every semicolon, trims all lines and drops the blank ones.  The
other passes expect their text in this form.
-/

namespace ActionLog.Pass

/-- `Normalize`: the statements of a text, each trimmed and on a line of its own. -/
def normalize (s : Text) : Text :=
  let broken := Text.replaceAll [Byte.semicolon] [Byte.semicolon, Byte.newline] (Text.unixLines s)
  Text.unlines (((Text.lines broken).map Text.trim).filter (· != []))

end ActionLog.Pass
