/-!
# Edit scripts

How one sequence becomes another, in chunks.

* `Op` — items that are deleted, inserted or kept;
* `Chunk` — a run of items under one operation;
* `before`, `after` — the two sequences that a script stands between;
* `commonPrefix`, `commonSuffix` — what two sequences share at their ends.
-/

namespace ActionLog.LineDiff

/-- What happens to the items of a chunk. -/
inductive Op where
  | delete
  | insert
  | keep
  deriving DecidableEq, Repr

/-- A run of items that are treated alike. -/
structure Chunk (α : Type) where
  op : Op
  items : List α
  deriving DecidableEq, Repr

/-- A sequence of chunks. -/
abbrev Script (α : Type) := List (Chunk α)

variable {α : Type}

/-- The sequence that a script starts from: what it deletes and keeps. -/
def before (script : Script α) : List α :=
  script.flatMap fun c => if c.op = .insert then [] else c.items

/-- The sequence that a script ends with: what it inserts and keeps. -/
def after (script : Script α) : List α :=
  script.flatMap fun c => if c.op = .delete then [] else c.items

/-- The longest sequence that both start with. -/
def commonPrefix [BEq α] : List α → List α → List α
  | a :: as, b :: bs => if a == b then a :: commonPrefix as bs else []
  | _, _ => []

/-- The longest sequence that both end with. -/
def commonSuffix [BEq α] (as bs : List α) : List α :=
  (commonPrefix as.reverse bs.reverse).reverse

/-- The sequence without its last `n` items. -/
def dropLast (n : Nat) (as : List α) : List α := as.take (as.length - n)

/-- The first place at which `sub` stands in a sequence. -/
def indexOf? [BEq α] (sub : List α) : List α → Option Nat
  | [] => if sub.isEmpty then some 0 else none
  | a :: as => if sub.isPrefixOf (a :: as) then some 0 else (indexOf? sub as).map (· + 1)

end ActionLog.LineDiff
