import ActionLog.Text.Utf8

/-!
# Searching a text from the left

A pattern looks at the byte before a place and the text from there on, and says how many bytes it
takes and what it found.  Searches try places from left to right; a match uses up its bytes, so
matches never overlap.

* `Grain` — whether every byte is a place to try, or only the start of every character;
* `findAll` — all matches with their places;
* `find?` — the first of them;
* `replaceHits` — the text with every match replaced;
* `literal?` — a fixed text at a place, compared character by character.
-/

namespace ActionLog.Text

/-- What a pattern says of a place: the number of bytes it takes, at least one, and a value. -/
abbrev Pattern (α : Type) := (before : Option UInt8) → (rest : Text) → Option (Nat × α)

/-- Which places a search tries. -/
inductive Grain where
  | byte
  | char
  deriving DecidableEq, Repr

/-- The distance from a place without a match to the next place to try. -/
def Grain.width : Grain → Text → Nat
  | .byte, _ => 1
  | .char, s => Utf8.width s

/-- A match: the bytes from `start` up to `stop`. -/
structure Hit (α : Type) where
  start : Nat
  stop : Nat
  value : α
  deriving Repr

/-- The matches from offset `pos` on, when the first `skip` bytes hold no place to try. -/
def findAllFrom {α : Type} (g : Grain) (p : Pattern α) :
    (pos : Nat) → (before : Option UInt8) → (skip : Nat) → Text → List (Hit α)
  | _, _, _, [] => []
  | pos, _, skip + 1, b :: s => findAllFrom g p (pos + 1) (some b) skip s
  | pos, before, 0, b :: s =>
    match p before (b :: s) with
    | some (n, a) => ⟨pos, pos + n, a⟩ :: findAllFrom g p (pos + 1) (some b) (n - 1) s
    | none => findAllFrom g p (pos + 1) (some b) (g.width (b :: s) - 1) s

/-- The matches of a pattern in a text, from the left and without overlap. -/
def findAll {α : Type} (g : Grain) (p : Pattern α) (s : Text) : List (Hit α) :=
  findAllFrom g p 0 none 0 s

/-- The first match of a pattern in a text. -/
def find? {α : Type} (g : Grain) (p : Pattern α) (s : Text) : Option (Hit α) :=
  (findAll g p s).head?

/-- The rest of a changed text, when its first `skip` bytes have been replaced or kept already. -/
def replaceHitsFrom (g : Grain) (p : Pattern Text) :
    (before : Option UInt8) → (skip : Nat) → Text → Text
  | _, _, [] => []
  | _, skip + 1, b :: s => replaceHitsFrom g p (some b) skip s
  | before, 0, b :: s =>
    match p before (b :: s) with
    | some (n, new) => new ++ replaceHitsFrom g p (some b) (n - 1) s
    | none =>
      let kept := g.width (b :: s) - 1
      b :: s.take kept ++ replaceHitsFrom g p (some b) kept s

/-- The text with every match of the pattern replaced by what the pattern found there. -/
def replaceHits (g : Grain) (p : Pattern Text) (s : Text) : Text := replaceHitsFrom g p none 0 s

/-- The number of bytes that `pat` takes at the start of a text.  Texts are compared as
characters: a replacement character in `pat` also stands for one stray byte.  So it is to be tried
at the start of characters only, where a byte that continues one is not mistaken for a stray. -/
def literal? : (pat : Text) → (s : Text) → Option Nat
  | [], _ => some 0
  | 0xEF :: 0xBF :: 0xBD :: pat, s =>
    match s with
    | 0xEF :: 0xBF :: 0xBD :: s => (literal? pat s).map (· + 3)
    | b :: s => if (Utf8.decode? (b :: s)).isNone then (literal? pat s).map (· + 1) else none
    | [] => none
  | a :: pat, b :: s => if a == b then (literal? pat s).map (· + 1) else none
  | _ :: _, [] => none

/-- Whether a word starts or ends between two neighbouring bytes. -/
def isBoundary (before after : Option UInt8) : Bool :=
  before.any Byte.isWord != after.any Byte.isWord

end ActionLog.Text
