import ActionLog.Stage
import ActionLog.Text.Decimal

/-!
# The list of stages

A table with a frame, one row for each stage.

* `Table` — rows of cells under a header, and `Table.render`, the table as text;
* `stageTable` — the stages and whether options ask for them.
-/

namespace ActionLog.Command

/-- Rows of cells under a header. -/
structure Table where
  header : List Text
  rows : List (List Text)

namespace Table

/-- The width of each column, the widest of its cells. -/
def widths (t : Table) : List Nat :=
  t.rows.foldl (fun ws row => List.zipWith max ws (row.map List.length))
    (t.header.map List.length)

/-- A row of cells, each padded to its column. -/
def row (ws : List Nat) (cells : List Text) : Text :=
  let padded := List.zipWith
    (fun w cell => [Byte.space] ++ cell ++ List.replicate (w + 1 - cell.length) Byte.space) ws cells
  utf8 "│" ++ Text.join (utf8 "│") padded ++ utf8 "│\n"

/-- A line of the frame, with its left, inner and right joints. -/
def frame (left inner right : String) (ws : List Nat) : Text :=
  utf8 left ++
    Text.join (utf8 inner) (ws.map fun w => (List.replicate (w + 2) (utf8 "─")).flatten) ++
    utf8 right ++ [Byte.newline]

/-- The table as text. -/
def render (t : Table) : Text :=
  let ws := t.widths
  frame "┌" "┬" "┐" ws ++ row ws t.header ++ frame "├" "┼" "┤" ws ++
    t.rows.flatMap (row ws) ++ frame "└" "┴" "┘" ws

end Table

/-- The stages in order, with what they do and whether options ask for them. -/
def stageTable (o : Options) : Table where
  header := ["#", "PASS", "ENABLED", "DESCRIPTION"].map utf8
  rows := Stage.all.zipIdx.map fun (stage, i) =>
    [Text.decimal (i + 1), stage.label, utf8 (if stage.isEnabled o then "yes" else "no"),
     stage.summary]

end ActionLog.Command
