import ActionLog.LineDiff.Script

/-!
# A common middle

Two sequences that share a run at least half as long as the longer of them are compared on either
side of that run.

* `Halves` — what stands before and after a run that two sequences share, and the run;
* `seeded?` — the longest shared run around a quarter of the longer sequence;
* `halves?` — the better of the runs around its second and its third quarter.
-/

namespace ActionLog.LineDiff

/-- Two sequences cut at a run that they share. -/
structure Halves (α : Type) where
  left₁ : List α
  right₁ : List α
  left₂ : List α
  right₂ : List α
  middle : List α
  deriving Repr

variable {α : Type} [BEq α]

/-- The same cut, with the two sequences exchanged. -/
def Halves.swap {α : Type} (h : Halves α) : Halves α :=
  ⟨h.left₂, h.right₂, h.left₁, h.right₁, h.middle⟩

/-- The places from `i` on at which a seed stands, in increasing order. -/
def seedPlaces (seed : List α) : (i : Nat) → List α → List Nat
  | _, [] => []
  | i, a :: as =>
    (if seed.isPrefixOf (a :: as) then [i] else []) ++ seedPlaces seed (i + 1) as

/-- The run shared by `long` around `i` and by `short` around `j`. -/
def runAround (long short : List α) (i j : Nat) : Halves α :=
  let following := commonPrefix (long.drop i) (short.drop j)
  let preceding := commonSuffix (long.take i) (short.take j)
  { left₁ := long.take (i - preceding.length)
    right₁ := long.drop (i + following.length)
    left₂ := short.take (j - preceding.length)
    right₂ := short.drop (j + following.length)
    middle := preceding ++ following }

/-- The longest shared run around a seed, a quarter of `long` from `i` on, if it is at least half
as long as `long`.  Of equally long ones it is the first. -/
def seeded? (long short : List α) (i : Nat) : Option (Halves α) :=
  let seed := (long.drop i).take (long.length / 4)
  let best := (seedPlaces seed 0 short).foldl (fun (best : Option (Halves α)) j =>
    let run := runAround long short i j
    match best with
    | some b => if b.middle.length < run.middle.length then some run else some b
    | none => if run.middle.isEmpty then none else some run) none
  best.filter fun b => long.length ≤ 2 * b.middle.length

/-- A run shared by two sequences, the first of which is the longer one. -/
def halvesOfLonger? (long short : List α) : Option (Halves α) :=
  if long.length < 4 || 2 * short.length < long.length then none
  else
    let second := seeded? long short ((long.length + 3) / 4)
    let third := seeded? long short ((long.length + 1) / 2)
    match second, third with
    | some x, some y => if y.middle.length < x.middle.length then some x else some y
    | some x, none => some x
    | none, y => y

/-- A run that takes half of the longer sequence and that the other one shares. -/
def halves? (as bs : List α) : Option (Halves α) :=
  if bs.length < as.length then halvesOfLonger? as bs
  else (halvesOfLonger? bs as).map Halves.swap

end ActionLog.LineDiff
