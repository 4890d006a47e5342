import ActionLog.Text.Decimal

/-!
# Integers as they are written

Integers of 64 bits in the notation of source code: an optional sign, then decimal, binary, octal or
hexadecimal digits, with underscores between digits.

* `IntError` — not an integer, or one that is too large;
* `parseNat` — the number of 64 bits without a sign that a text denotes;
* `parseInt` — the integer that a text denotes;
* `parseSignedIn?` — the same for signed digits in a known base;
* `parseDecimal?` — the same for signed decimal digits only;
* `parseBool?` — the texts that denote truth values.
-/

namespace ActionLog.Text

/-- Why a text is no integer of 64 bits. -/
inductive IntError where
  | malformed
  | range
  deriving DecidableEq, Repr

/-- The number of integers of 64 bits. -/
def wordCount : Nat := 0x10000000000000000

/-- The number of integers of 64 bits that are negative. -/
def negativeCount : Nat := 0x8000000000000000

/-- The value of a digit in any base up to thirty-six. -/
def digitValue? (b : UInt8) : Option Nat :=
  if Byte.isDigit b then some (b.toNat - 0x30)
  else if 0x61 ≤ b && b ≤ 0x7A then some (b.toNat - 0x57)
  else if 0x41 ≤ b && b ≤ 0x5A then some (b.toNat - 0x37)
  else none

/-- The number that digits denote; it stops at the first number of more than 64 bits. -/
def digitsIn (base : Nat) (n : Nat) : Text → Except IntError Nat
  | [] => .ok n
  | b :: s =>
    if b == Byte.underscore then digitsIn base n s
    else
      match digitValue? b with
      | some d =>
        if base ≤ d then .error .malformed
        else if wordCount ≤ n * base + d then .error .range
        else digitsIn base (n * base + d) s
      | none => .error .malformed

/-- Whether every underscore stands between two digits; `digitBefore` tells whether a digit, or the
mark of a base, came before. -/
def underscoresFit (digitBefore : Bool) : Text → Bool
  | [] => true
  | b :: s =>
    if b == Byte.underscore then
      digitBefore && (s.head?.any fun c => c != Byte.underscore) && underscoresFit false s
    else underscoresFit true s

/-- The base of a number without sign, its digits, and whether a mark of the base precedes them. -/
def baseOf (s : Text) : Nat × Text × Bool :=
  match s with
  | 0x30 :: c :: d :: r =>
    if c == 0x62 || c == 0x42 then (2, d :: r, true)
    else if c == 0x6F || c == 0x4F then (8, d :: r, true)
    else if c == 0x78 || c == 0x58 then (16, d :: r, true)
    else (8, c :: d :: r, true)
  | 0x30 :: r => (8, r, true)
  | _ => (10, s, false)

/-- The text without its sign, and whether the sign is a minus. -/
def signOf (s : Text) : Text × Bool :=
  match s with
  | 0x2B :: r => (r, false)
  | 0x2D :: r => (r, true)
  | _ => (s, false)

/-- An absolute value with its sign, if 64 bits can hold it. -/
def withSign (negative : Bool) (n : Nat) : Except IntError Int :=
  if negative then (if negativeCount < n then .error .range else .ok (-n))
  else if negativeCount ≤ n then .error .range else .ok n

/-- The natural number that a text denotes. -/
def parseNat (s : Text) : Except IntError Nat := do
  if s.isEmpty then .error .malformed
  else
    let (base, digits, marked) := baseOf s
    let n ← digitsIn base 0 digits
    if underscoresFit marked digits then return n else .error .malformed

/-- The integer that a text denotes. -/
def parseInt (s : Text) : Except IntError Int := do
  let (unsigned, negative) := signOf s
  withSign negative (← parseNat unsigned)

/-- The integer that signed digits denote in a base. -/
def parseSignedIn? (base : Nat) (s : Text) : Option Int :=
  let (digits, negative) := signOf s
  if digits.isEmpty || digits.contains Byte.underscore then none
  else ((digitsIn base 0 digits).bind (withSign negative)).toOption

/-- The integer that signed decimal digits denote. -/
def parseDecimal? (s : Text) : Option Int :=
  let (digits, negative) := signOf s
  if digits.isEmpty || !digits.all Byte.isDigit then none
  else (withSign negative (natOfDigits digits)).toOption

/-- The truth value that a text denotes. -/
def parseBool? (s : Text) : Option Bool :=
  if (["1", "t", "T", "TRUE", "true", "True"].map utf8).contains s then some true
  else if (["0", "f", "F", "FALSE", "false", "False"].map utf8).contains s then some false
  else none

end ActionLog.Text
