import ActionLog.Declaration
import ActionLog.Text.LowerCase

/-!
# Declarations first

`hoist` moves the declaration lines of a text to its top, each once and in alphabetical order, with
a blank line between them and the rest.
-/

namespace ActionLog.Pass

/-- Alphabetical order of lines: without regard to case first, then by bytes. -/
def lineLe (a b : Text) : Bool :=
  let x := Text.toLower a
  let y := Text.toLower b
  if x == y then Text.le a b else Text.le x y

/-- `Hoist`: the text with its declarations on top. -/
def hoist (s : Text) : Text :=
  let ls := Text.lines s
  match (ls.filter Declaration.isDeclaration).eraseDups with
  | [] => s
  | declared =>
    let body := Text.trimNewlines (Text.unlines (ls.filter fun l => !Declaration.isDeclaration l))
    Text.unlines (declared.mergeSort lineLe) ++
      if body == [] then [] else utf8 "\n\n" ++ body

end ActionLog.Pass
