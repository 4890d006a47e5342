import ActionLog.Text.Blank

/-!
# Logs and their entries

A recorder writes a separator line before every entry it appends to a log.

* `separator` — that line with its newline;
* `entries` — the entries of a log, trimmed, empty ones left out;
* `isSeparated` — whether the log has separators at all; a lone entry need not have one;
* `write` — entries back as a log;
* `lastEntry` — the entry recorded last.
-/

namespace ActionLog.Log

/-- `Separator`: the line that precedes every entry. -/
def separator : Text := utf8 "// =======================================================\n"

/-- `Split`: the entries of a log in order, with plain newlines and without white space at their
ends. -/
def entries (log : Text) : List Text :=
  ((Text.splitOn separator (Text.unixLines log)).map Text.trim).filter (· != [])

/-- `Separated`: whether the log holds a separator. -/
def isSeparated (log : Text) : Bool := Text.includes separator (Text.unixLines log)

/-- `Join`: entries as a log, each after a separator and a blank line apart, except that a single
entry stands alone if the log is not `separated`. -/
def write (separated : Bool) : List Text → Text
  | [] => []
  | [e] => if separated then separator ++ e else e
  | es => separator ++ Text.join (utf8 "\n\n" ++ separator) es

/-- `Last`: the last entry of a log; empty if there is none. -/
def lastEntry (log : Text) : Text := (entries log).getLast?.getD []

end ActionLog.Log
