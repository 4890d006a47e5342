import ActionLog.LineDiff.Script

/-!
# Tidying a script

* `mergeRuns` — one deletion and one insertion between two kept chunks, what both have in common
  moved out of them, and no two kept chunks next to each other;
* `shiftEdits` — edits between two kept chunks moved sideways where that saves one of the chunks;
* `tidy` — both, until nothing moves.
-/

namespace ActionLog.LineDiff

variable {α : Type} [BEq α]

/-- The items of a run of edits that are under one operation. -/
def gather {α : Type} (op : Op) (run : Script α) : List α :=
  (run.filter (·.op = op)).flatMap (·.items)

/-- The script, given in reverse, with kept items added at its end. -/
def keepAtEnd {α : Type} (items : List α) : Script α → Script α
  | [] => [⟨.keep, items⟩]
  | c :: cs => if c.op = .keep then ⟨.keep, c.items ++ items⟩ :: cs else ⟨.keep, items⟩ :: c :: cs

/-- A run of edits, and the kept chunk after it, put at the end of a script that is given in
reverse.  A run of several edits becomes one deletion and one insertion, and what these share at
their ends is kept instead. -/
def closeRun (done run : Script α) (kept : List α) : Script α :=
  if run.length ≤ 1 then
    match run with
    | [] => keepAtEnd kept done
    | _ => ⟨.keep, kept⟩ :: run.reverse ++ done
  else
    let deleted := gather .delete run
    let inserted := gather .insert run
    let deletes := run.any (·.op = .delete)
    let inserts := run.any (·.op = .insert)
    if deletes && inserts then
      let front := commonPrefix inserted deleted
      let deleted := deleted.drop front.length
      let inserted := inserted.drop front.length
      let back := commonSuffix inserted deleted
      let done := if front.isEmpty then done else keepAtEnd front done
      ⟨.keep, back ++ kept⟩ :: ⟨.insert, dropLast back.length inserted⟩ ::
        ⟨.delete, dropLast back.length deleted⟩ :: done
    else if deletes then ⟨.keep, kept⟩ :: ⟨.delete, deleted⟩ :: done
    else ⟨.keep, kept⟩ :: ⟨.insert, inserted⟩ :: done

/-- The chunks of a script merged from left to right.  `done` holds what is finished, in reverse,
and `run` the edits since the last kept chunk. -/
def mergeFrom (done run : Script α) : Script α → Script α
  | [] => (closeRun done run []).reverse
  | c :: cs =>
    if c.op = .keep then mergeFrom (closeRun done run c.items) [] cs
    else mergeFrom done (run ++ [c]) cs

/-- The script without an empty chunk at its end. -/
def dropEmptyEnd {α : Type} (script : Script α) : Script α :=
  match script.getLast? with
  | some c => if c.items.isEmpty then script.dropLast else script
  | none => script

/-- The script with one deletion and one insertion between any two kept chunks. -/
def mergeRuns (script : Script α) : Script α := dropEmptyEnd (mergeFrom [] [] script)

/-- The script with edits moved sideways, and whether any was moved.  An edit that ends with the
kept items before it moves left, one that starts with those after it moves right. -/
def shiftEdits : Script α → Script α × Bool
  | p :: c :: n :: rest =>
    if p.op = .keep && n.op = .keep then
      if p.items.isSuffixOf c.items then
        let moved : Chunk α := ⟨c.op, p.items ++ dropLast p.items.length c.items⟩
        let (rest, _) := shiftEdits (⟨.keep, p.items ++ n.items⟩ :: rest)
        (moved :: rest, true)
      else if n.items.isPrefixOf c.items then
        let moved : Chunk α := ⟨c.op, c.items.drop n.items.length ++ n.items⟩
        let (rest, _) := shiftEdits (moved :: rest)
        (⟨.keep, p.items ++ n.items⟩ :: rest, true)
      else
        let (rest, any) := shiftEdits (c :: n :: rest)
        (p :: rest, any)
    else
      let (rest, any) := shiftEdits (c :: n :: rest)
      (p :: rest, any)
  | script => (script, false)
termination_by script => script.length

/-- The script merged and shifted, at most `rounds` times over. -/
def tidyFor : (rounds : Nat) → Script α → Script α
  | 0, script => script
  | rounds + 1, script =>
    let (shifted, any) := shiftEdits (mergeRuns script)
    if any then tidyFor rounds shifted else shifted

/-- The script merged and shifted until nothing moves.  A round that moves an edit drops a chunk,
and chunks are added only where edits lose items, so there are no more rounds than chunks and items
together. -/
def tidy (script : Script α) : Script α :=
  tidyFor (script.length + (script.flatMap (·.items)).length + 1) script

end ActionLog.LineDiff
