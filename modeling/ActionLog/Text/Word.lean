import ActionLog.Text.Scan

/-!
# Whole words

Identifiers inside a line.  A word is whole where neither neighbour is a byte of an identifier.

* `hasWord`, `replaceWord` — occurrences of one word, searched as a text;
* `nameRun`, `substitute` — all maximal runs of identifier bytes, renamed at once.
-/

namespace ActionLog.Text

/-- The word `w`, neither preceded nor followed by a byte of an identifier. -/
def wordPattern (w : Text) : Pattern Unit := fun before rest =>
  if w.isEmpty then none else
  match w.isPrefixOf? rest with
  | some tail =>
    if !before.any Byte.isName && !tail.head?.any Byte.isName then some (w.length, ()) else none
  | none => none

/-- `hasWord`: whether `w` occurs in the text as a whole word. -/
def hasWord (w s : Text) : Bool := (find? .byte (wordPattern w) s).isSome

/-- `replaceWord`: the text with every whole word `old` replaced by `new`. -/
def replaceWord (old new s : Text) : Text :=
  replaceHits .byte (fun before rest => (wordPattern old before rest).map fun (n, _) => (n, new)) s

/-- A maximal run of identifier bytes. -/
def nameRun : Pattern Text := fun _ rest =>
  match rest.takeWhile Byte.isName with
  | [] => none
  | run => some (run.length, run)

/-- The text with every maximal run of identifier bytes renamed. -/
def substitute (f : Text → Text) (s : Text) : Text :=
  replaceHits .byte (fun before rest => (nameRun before rest).map fun (n, run) => (n, f run)) s

end ActionLog.Text
