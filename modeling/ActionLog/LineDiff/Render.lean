import ActionLog.LineDiff.Basic
import ActionLog.Text.Basic

/-!
# Differences of two texts, line by line

* `linesWithEnds` — the lines of a text with their newlines;
* `lineScript` — the script between two texts that goes by their lines;
* `deletionsFirst` — a script in which an insertion never stands right before a deletion;
* `render?` — the difference of two texts under a header, if there is any, whatever finds the script
  between them (`diff.Diff`);
* `colour` — a difference for a terminal.
-/

namespace ActionLog.LineDiff

/-- The lines of a text with their newlines; a text that ends with a newline has no line after
it. -/
def linesWithEnds : Text → List Text
  | [] => []
  | b :: s =>
    if b == Byte.newline then [b] :: linesWithEnds s
    else
      match linesWithEnds s with
      | [] => [[b]]
      | l :: ls => (b :: l) :: ls

/-- A chunk of lines as a chunk of text. -/
def Chunk.joined (c : Chunk Text) : Chunk UInt8 := ⟨c.op, c.items.flatten⟩

/-- How one text becomes another by whole lines. -/
def lineScript (old new : Text) : Script UInt8 :=
  (compare (linesWithEnds old) (linesWithEnds new)).map Chunk.joined

/-- The script with every insertion moved past the deletion after it, from left to right. -/
def deletionsFirst {α : Type} : Script α → Script α
  | a :: b :: rest =>
    if a.op = .insert && b.op = .delete then b :: deletionsFirst (a :: rest)
    else a :: deletionsFirst (b :: rest)
  | script => script
termination_by script => script.length

/-- The mark at the start of the lines of a chunk. -/
def Op.mark : Op → UInt8
  | .delete => 0x2D
  | .insert => 0x2B
  | .keep => Byte.space

/-- The lines of a chunk, marked and each with a newline. -/
def renderChunk (c : Chunk UInt8) : Text :=
  (linesWithEnds c.items).flatMap fun line =>
    c.op.mark :: Text.dropEnd [Byte.newline] line ++ [Byte.newline]

/-- The three lines that name the two texts. -/
def header (oldName newName : Text) : Text :=
  utf8 "diff " ++ oldName ++ utf8 " " ++ newName ++ utf8 "\n--- " ++ oldName ++
    utf8 "\n+++ " ++ newName ++ utf8 "\n"

/-- `diff.Diff`: the difference of two texts under `script`, with all lines marked as deleted, inserted
or kept.  Equal texts have none. -/
def render? (script : Text → Text → Script UInt8) (oldName old newName new : Text) : Option Text :=
  if old = new then none
  else some (header oldName newName ++ (deletionsFirst (script old new)).flatMap renderChunk)

/-- A line between two terminal codes. -/
def painted (on off : String) (line : Text) : Text :=
  utf8 "\x1b[" ++ utf8 on ++ utf8 "m" ++ line ++ utf8 "\x1b[" ++ utf8 off ++ utf8 "m"

/-- A line of a difference, given its number from zero: the header is bold, deletions are red and
insertions green. -/
def paint (number : Nat) (line : Text) : Text :=
  if number < 3 then painted "1" "22" line
  else if line.head? == some Op.delete.mark then painted "31" "0" line
  else if line.head? == some Op.insert.mark then painted "32" "0" line
  else line

/-- A difference with every line ended, and painted if colours are on; none if it is empty. -/
def colour (on : Bool) (diff : Text) : Option Text :=
  if diff == [] then none
  else
    let ls := Text.lines (Text.dropEnd [Byte.newline] diff)
    some ((ls.mapIdx fun i l => (if on then paint i l else l) ++ [Byte.newline]).flatten)

end ActionLog.LineDiff
