import ActionLog.Text.Decimal
import ActionLog.Text.Quoted

/-!
# Drafts: texts with queued edits

Edits are queued against the positions of the text as it was given, and take effect together
(`edit.Buffer`).

* `Edit` — other bytes for the range from `start` up to `stop`;
* `Draft.replace`, `Draft.insert`, `Draft.delete` — queueing an edit that lies inside the text;
* `Draft.settle` — the queue in order of position, insertions first;
* `Draft.result` — the edited text, unless two edits overlap;
* `revise` — a whole list of edits at once.
-/

namespace ActionLog

/-- Replaces the bytes from `start` up to `stop`. -/
structure Edit where
  start : Nat
  stop : Nat
  text : Text
  deriving DecidableEq, Repr

/-- Why an edit cannot be made. -/
inductive EditError where
  | position
  | overlap (first second : Edit)
  deriving DecidableEq, Repr

/-- An edit as messages show it. -/
def Edit.describe (e : Edit) : Text :=
  utf8 "[" ++ Text.decimal e.start ++ utf8 "," ++ Text.decimal e.stop ++ utf8 ")->" ++
    Text.quote e.text

/-- The complaint about an edit. -/
def EditError.message : EditError → Text
  | .position => utf8 "invalid edit position"
  | .overlap a b => utf8 "overlapping edits: " ++ a.describe ++ utf8 ", " ++ b.describe

/-- `edits.Less`: edits are ordered by their start, then by their end. -/
def Edit.le (a b : Edit) : Bool :=
  a.start < b.start || (a.start == b.start && a.stop ≤ b.stop)

/-- `edit.Buffer`: a text and the edits queued for it. -/
structure Draft where
  base : Text
  queue : List Edit
  deriving DecidableEq, Repr

namespace Draft

/-- `NewBuffer`: a draft without edits. -/
def ofText (base : Text) : Draft := ⟨base, []⟩

/-- `Len`: the number of queued edits. -/
def size (d : Draft) : Nat := d.queue.length

/-- `Replace`: queues other bytes for the range from `start` up to `stop`. -/
def replace (d : Draft) (start stop : Int) (text : Text) : Except EditError Draft :=
  if stop < start || start < 0 || stop > d.base.length then .error .position
  else .ok { d with queue := d.queue ++ [⟨start.toNat, stop.toNat, text⟩] }

/-- `Insert`: queues bytes to be put in at a position. -/
def insert (d : Draft) (at_ : Int) (text : Text) : Except EditError Draft :=
  d.replace at_ at_ text

/-- `Delete`: queues the removal of a range. -/
def delete (d : Draft) (start stop : Int) : Except EditError Draft := d.replace start stop []

/-- The first two neighbours of which the second starts before the first ends. -/
def firstOverlap : List Edit → Option (Edit × Edit)
  | a :: b :: es => if b.start < a.stop then some (a, b) else firstOverlap (b :: es)
  | _ => none

/-- The text from `offset` on with edits made in order. -/
def splice (base : Text) : (offset : Nat) → List Edit → Text
  | offset, [] => base.drop offset
  | offset, e :: es => (base.take e.start).drop offset ++ e.text ++ splice base e.stop es

/-- The draft with its queue put in order; edits of the same range stay as they were queued. -/
def settle (d : Draft) : Draft := { d with queue := d.queue.mergeSort Edit.le }

/-- `Bytes`: the edited text, or the first two edits that overlap. -/
def result (d : Draft) : Except EditError Text :=
  let es := d.settle.queue
  match firstOverlap es with
  | some (a, b) => .error (.overlap a b)
  | none => .ok (splice d.base 0 es)

end Draft

/-- The text with all edits made together. -/
def revise (s : Text) (edits : List Edit) : Except EditError Text := do
  let d ← edits.foldlM (fun (d : Draft) e => d.replace e.start e.stop e.text) (Draft.ofText s)
  d.result

end ActionLog
