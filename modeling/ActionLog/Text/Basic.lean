import ActionLog.Text.Byte

/-!
# Texts

A text is a list of bytes.  Logs come from a recorder that promises no encoding, so every
operation is defined on all byte sequences, well-formed UTF-8 or not.

* `utf8` — the bytes of a literal;
* `lines` and `unlines` — cutting at newlines and joining with them;
* `cut`, `splitOn`, `replaceAll`, `includes` — first and successive occurrences of a pattern;
* `trimEndBy`, `trimBy` — removing bytes of a class at the ends.

`cut_eq_some` says that a cut loses nothing but the pattern it was made at.
-/

namespace ActionLog

/-- A sequence of bytes. -/
abbrev Text := List UInt8

/-- The bytes of a literal. -/
def utf8 (s : String) : Text := s.toUTF8.data.toList

namespace Text

/-- The lines of a text, without their newlines.  There is always at least one. -/
def lines (s : Text) : List Text := List.splitOn Byte.newline s

/-- Lines put back together with newlines between them. -/
def unlines (ls : List Text) : Text := List.intercalate [Byte.newline] ls

theorem unlines_lines (s : Text) : unlines (lines s) = s :=
  List.intercalate_splitOn Byte.newline

/-- Texts with `sep` between them. -/
def join (sep : Text) (ts : List Text) : Text := List.intercalate sep ts

/-- Whether `pat` occurs in the text. -/
def includes (pat : Text) : Text → Bool
  | [] => pat.isEmpty
  | b :: s => pat.isPrefixOf (b :: s) || includes pat s

/-- What stands before and after the first occurrence of `pat`. -/
def cut (pat : Text) : Text → Option (Text × Text)
  | [] => if pat.isEmpty then some ([], []) else none
  | b :: s =>
    if pat.isPrefixOf (b :: s) then some ([], (b :: s).drop pat.length)
    else (cut pat s).map fun (l, r) => (b :: l, r)

theorem cut_eq_some {pat s l r : Text} (h : cut pat s = some (l, r)) : s = l ++ pat ++ r := by
  induction s generalizing l r with
  | nil =>
    simp only [cut, List.isEmpty_iff] at h
    split at h <;> simp_all
  | cons b s ih =>
    simp only [cut] at h
    split at h
    · next hp =>
      obtain ⟨t, ht⟩ := List.isPrefixOf_iff_prefix.mp hp
      simp only [Option.some.injEq, Prod.mk.injEq] at h
      obtain ⟨rfl, rfl⟩ := h
      rw [← ht]; simp
    · obtain ⟨⟨l', r'⟩, hc, he⟩ := Option.map_eq_some_iff.mp h
      simp only [Prod.mk.injEq] at he
      obtain ⟨rfl, rfl⟩ := he
      simp [ih hc]

/-- The texts between the successive occurrences of `sep`; an empty `sep` cuts nowhere. -/
def splitOn (sep s : Text) : List Text :=
  if _hs : sep = [] then [s] else
  match _h : cut sep s with
  | none => [s]
  | some (l, r) => l :: splitOn sep r
termination_by s.length
decreasing_by
  have := cut_eq_some _h
  have : 0 < sep.length := List.length_pos_iff.mpr _hs
  simp_all; omega

/-- The text with every occurrence of `old`, taken from the left, replaced by `new`. -/
def replaceAll (old new s : Text) : Text := join new (splitOn old s)

/-- The text with every carriage return that precedes a newline left out. -/
def unixLines (s : Text) : Text :=
  replaceAll [Byte.carriageReturn, Byte.newline] [Byte.newline] s

/-- The text without the bytes of the class at its end. -/
def trimEndBy (p : UInt8 → Bool) (s : Text) : Text := (s.reverse.dropWhile p).reverse

/-- The text without the bytes of the class at either end. -/
def trimBy (p : UInt8 → Bool) (s : Text) : Text := trimEndBy p (s.dropWhile p)

/-- The text without newlines at either end. -/
def trimNewlines (s : Text) : Text := trimBy (· == Byte.newline) s

/-- What follows `pat` at the start of the text. -/
def after? (pat s : Text) : Option Text := pat.isPrefixOf? s

/-- The text without `pat` at its end, if it ends so. -/
def dropEnd (pat s : Text) : Text :=
  match pat.reverse.isPrefixOf? s.reverse with
  | some r => r.reverse
  | none => s

/-- What stands before and after the last byte equal to `b`. -/
def cutLast (b : UInt8) (s : Text) : Option (Text × Text) :=
  match s.reverse.span (· != b) with
  | (_, []) => none
  | (r, _ :: l) => some (l.reverse, r.reverse)

/-- Order of texts by their bytes. -/
def le (s t : Text) : Bool := decide (s ≤ t)

end Text

end ActionLog
