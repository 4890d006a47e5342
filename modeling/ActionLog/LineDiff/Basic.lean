import ActionLog.LineDiff.Halves
import ActionLog.LineDiff.Merge
import ActionLog.LineDiff.Middle

/-!
# Comparing two sequences

`compare` gives a short script from one sequence to another.  It cuts off what the two share at
their ends and splits the rest at a common middle or at the middle of a shortest script.
-/

namespace ActionLog.LineDiff

variable {α : Type} [BEq α]

/-- Everything deleted and everything inserted. -/
def replaceAll {α : Type} (as bs : List α) : Script α := [⟨.delete, as⟩, ⟨.insert, bs⟩]

/-- A script between sequences that share nothing at their ends.  `recur` compares their parts. -/
def compareMiddle (recur : List α → List α → Script α) (as bs : List α) : Script α :=
  if as.isEmpty then [⟨.insert, bs⟩]
  else if bs.isEmpty then [⟨.delete, as⟩]
  else
    let deleting := bs.length < as.length
    let long := if deleting then as else bs
    let short := if deleting then bs else as
    let op : Op := if deleting then .delete else .insert
    match indexOf? short long with
    | some i => [⟨op, long.take i⟩, ⟨.keep, short⟩, ⟨op, long.drop (i + short.length)⟩]
    | none =>
      if short.length = 1 then replaceAll as bs
      else
        match halves? as bs with
        | some h => recur h.left₁ h.left₂ ++ [⟨.keep, h.middle⟩] ++ recur h.right₁ h.right₂
        | none =>
          match meeting? as bs with
          | some (x, y) => recur (as.take x) (bs.take y) ++ recur (as.drop x) (bs.drop y)
          | none => replaceAll as bs

/-- A script between two sequences, split at most `depth` times over. -/
def compareTo [DecidableEq α] : (depth : Nat) → List α → List α → Script α
  | 0, as, bs => replaceAll as bs
  | depth + 1, as, bs =>
    if as = bs then (if as.isEmpty then [] else [⟨.keep, as⟩])
    else
      let front := commonPrefix as bs
      let as := as.drop front.length
      let bs := bs.drop front.length
      let back := commonSuffix as bs
      let middle := compareMiddle (compareTo depth)
        (dropLast back.length as) (dropLast back.length bs)
      tidy ((if front.isEmpty then [] else [⟨.keep, front⟩]) ++ middle ++
        if back.isEmpty then [] else [⟨.keep, back⟩])

/-- A short script from one sequence to another.  Every split leaves shorter sequences, so the
depth does not exceed their length. -/
def compare [DecidableEq α] (as bs : List α) : Script α :=
  compareTo (as.length + bs.length + 1) as bs

end ActionLog.LineDiff
