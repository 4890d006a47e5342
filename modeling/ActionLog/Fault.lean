import ActionLog.Declaration

/-!
# Faults of a run

The entries of a log that could not be cleaned, collected for one summary at the end.

* `Position` — an entry and, if known, a line of it;
* `Fault` — what went wrong there, and in which pass;
* `FaultList` — faults without repetition; two are the same if position and text agree;
* `FaultList.summary` — the text of all of them in order of position, where a message that occurs
  more than three times is given once with its number.
-/

namespace ActionLog

/-- An entry of a log and a line of that entry, both counted from one (`clean.Position`).  The line
is zero if it is not known. -/
structure Position where
  block : Int
  line : Int
  deriving DecidableEq, Repr

namespace Position

/-- `IsValid`: whether the position names an entry. -/
def isValid (p : Position) : Bool := 0 < p.block

/-- `String`: the position as messages show it. -/
def describe (p : Position) : Text :=
  utf8 "block " ++ Text.signed p.block ++
    if 0 < p.line then utf8 ":" ++ Text.signed p.line else []

/-- Order by entry, then by line. -/
def le (p q : Position) : Bool :=
  p.block < q.block || (p.block == q.block && p.line ≤ q.line)

end Position

/-- `clean.Error`: what went wrong at a position, and whether a malformed declaration is the
cause. -/
structure Fault where
  position : Position
  pass : Text
  message : Text
  malformed : Bool
  deriving DecidableEq, Repr

/-- `Error.Error`: the fault in one line, with its position, its pass and its message. -/
def Fault.text (f : Fault) : Text :=
  (if f.position.isValid then f.position.describe ++ utf8 ": " else []) ++
  (if f.pass != [] then f.pass ++ utf8 ": " else []) ++ f.message

/-- A fault that names neither an entry nor a pass. -/
def Fault.ofMessage (message : Text) (malformed : Bool) : Fault := ⟨⟨0, 0⟩, [], message, malformed⟩

/-- Whether two faults say the same of the same position: they have one `errorKey`. -/
def Fault.same (f g : Fault) : Bool := f.position == g.position && f.text == g.text

/-- `clean.ErrorList`: faults, no two of which are the same. -/
structure FaultList where
  faults : List Fault
  deriving DecidableEq, Repr

namespace FaultList

/-- No faults. -/
def empty : FaultList := ⟨[]⟩

/-- `Len`: the number of faults. -/
def size (l : FaultList) : Nat := l.faults.length

/-- `Add`: the list with a fault added at its end, unless it holds the same one. -/
def add (l : FaultList) (f : Fault) : FaultList :=
  if l.faults.any (·.same f) then l else ⟨l.faults ++ [f]⟩

/-- `Add` of a list: the list with the faults of another added one by one. -/
def merge (l other : FaultList) : FaultList := other.faults.foldl add l

/-- The faults in order of position; faults of one position stay in the order they were added. -/
def sort (l : FaultList) : FaultList := ⟨l.faults.mergeSort fun f g => f.position.le g.position⟩

/-- How often a message occurs. -/
def count (l : FaultList) (message : Text) : Nat :=
  (l.faults.filter (·.message == message)).length

/-- One text for each fault, except that a message that occurs more than three times is given once,
with its number; `collapsed` are the messages given so. -/
def texts (l : FaultList) : (collapsed : List Text) → List Fault → List Text
  | _, [] => []
  | collapsed, f :: fs =>
    if collapsed.contains f.message then texts l collapsed fs
    else if 3 < l.count f.message then
      (f.text ++ utf8 " [× " ++ Text.decimal (l.count f.message) ++ utf8 "]") ::
        texts l (f.message :: collapsed) fs
    else f.text :: texts l collapsed fs

/-- `ErrorList.Error`: the summary of all faults, one a line; texts that are empty start no
summary. -/
def summary (l : FaultList) : Text :=
  if l.faults.isEmpty then utf8 "no errors"
  else Text.unlines ((texts l [] l.sort.faults).dropWhile (· == []))

end FaultList

end ActionLog
