/-!
# The middle of a shortest script

Shortest scripts are paths through a grid; `x` counts items of the first sequence, `y` items of the
second, and a step along a diagonal keeps an item.  Two searches, one from each corner, meet in the
middle.

* `Front` — how far a search has come on each diagonal;
* `walk` — one more edit on every diagonal of a front;
* `meeting?` — a point at which the two searches meet.
-/

namespace ActionLog.LineDiff

/-- The furthest `x` reached on the diagonals `x - y`, or `-1` where nothing was reached.  The
entry of diagonal `k` stands at `centre + k`.  Diagonals that left the grid are not walked again:
`low` counts them at the lower end and `high` at the upper. -/
structure Front where
  centre : Int
  reach : Array Int
  low : Int
  high : Int

namespace Front

/-- A front at a corner, for scripts of at most `limit` edits on its side. -/
def start (limit : Nat) : Front :=
  ⟨limit, (Array.replicate (2 * limit) (-1 : Int)).setIfInBounds (limit + 1) 0, 0, 0⟩

/-- The furthest `x` on a diagonal. -/
def get (f : Front) (k : Int) : Int :=
  if f.centre + k < 0 then -1 else f.reach.getD (f.centre + k).toNat (-1)

/-- The front with another furthest `x` on a diagonal. -/
def set (f : Front) (k x : Int) : Front :=
  { f with reach := f.reach.setIfInBounds (f.centre + k).toNat x }

end Front

variable {α : Type} [BEq α]

/-- How many items two sequences have in common from `x` and `y` on, at most `bound`. -/
def slide (as bs : Array α) : (bound : Nat) → (x y : Int) → Nat
  | 0, _, _ => 0
  | bound + 1, x, y =>
    if x < 0 || y < 0 then 0
    else
      match as[x.toNat]?, bs[y.toNat]? with
      | some a, some b => if a == b then slide as bs bound (x + 1) (y + 1) + 1 else 0
      | _, _ => 0

/-- The `d`-th edit on the diagonals `k`, `k + 2`, … of a front, at most `count` of them, up to the
first on which the front meets the other one.  `meets` tells so from a diagonal and its `x`. -/
def walk (as bs : Array α) (d : Int) (meets : (k x : Int) → Bool) :
    (count : Nat) → (k : Int) → Front → Front × Option (Int × Int)
  | 0, _, f => (f, none)
  | count + 1, k, f =>
    if d - f.high < k then (f, none)
    else
      let x :=
        if k = -d || (k ≠ d && f.get (k - 1) < f.get (k + 1)) then f.get (k + 1)
        else f.get (k - 1) + 1
      let x := x + slide as bs as.size x (x - k)
      let f := f.set k x
      if as.size < x then walk as bs d meets count (k + 2) { f with high := f.high + 2 }
      else if bs.size < x - k then walk as bs d meets count (k + 2) { f with low := f.low + 2 }
      else if meets k x then (f, some (k, x))
      else walk as bs d meets count (k + 2) f

/-- The point at which the searches meet, after `d` edits or more on both sides. -/
def meetingFrom (as bs : Array α) (limit : Nat) :
    (rounds : Nat) → (d : Nat) → (forward backward : Front) → Option (Int × Int)
  | 0, _, _, _ => none
  | rounds + 1, d, forward, backward =>
    let n : Int := as.size
    let delta : Int := n - bs.size
    let odd := delta % 2 != 0
    let inside (k : Int) : Bool := 0 ≤ limit + k && limit + k < 2 * limit
    let meetsBackward (k x : Int) : Bool :=
      odd && inside (delta - k) && backward.get (delta - k) != -1 &&
        n - backward.get (delta - k) ≤ x
    match walk as bs d meetsBackward (d + 1) (-d + forward.low) forward with
    | (_, some (k, x)) => some (x, x - k)
    | (forward, none) =>
      let meetsForward (k x : Int) : Bool :=
        !odd && inside (delta - k) && forward.get (delta - k) != -1 &&
          n - x ≤ forward.get (delta - k)
      match walk as.reverse bs.reverse d meetsForward (d + 1) (-d + backward.low) backward with
      | (_, some (k, _)) =>
        let x := forward.get (delta - k)
        some (x, x - (delta - k))
      | (backward, none) => meetingFrom as bs limit rounds (d + 1) forward backward

/-- A point in the middle of a shortest script: that many items of both sequences come first.
There is none if the sequences have nothing in common. -/
def meeting? (as bs : List α) : Option (Nat × Nat) :=
  let limit := (as.length + bs.length + 1) / 2
  (meetingFrom as.toArray bs.toArray limit limit 0 (Front.start limit) (Front.start limit)).map
    fun (x, y) => (x.toNat, y.toNat)

end ActionLog.LineDiff
