import ActionLog.Text.Integer

/-!
# Numbers of double precision

* `Scientific` — decimal numbers as they are written: a mantissa and a power of ten;
* `Double` — finite numbers `± mantissa * 2 ^ exponent` with a mantissa of at most 53 bits, the two
  infinities, and the number that is none;
* `Double.nearest?` — the double next to a decimal number, a half going to the even mantissa; none
  where that would be an infinity;
* `Double.readsBack` — whether a decimal number is nearer to a double than to all others;
* `Double.shortest` — a decimal number with the fewest digits that reads back;
* `Double.render` — that number in positional notation;
* `Double.truncate` — the integer part, in 64 bits.

All of it is exact arithmetic on natural numbers.
-/

namespace ActionLog

/-- The decimal number `± mantissa * 10 ^ exponent`. -/
structure Scientific where
  negative : Bool
  mantissa : Nat
  exponent : Int
  deriving DecidableEq, Repr

namespace Scientific

/-- The number in positional notation, without zeros at the end of the fraction. -/
def render (x : Scientific) : Text :=
  let places := (-x.exponent).toNat
  let digits := Text.decimal (x.mantissa * Nat.pow 10 x.exponent.toNat)
  let digits := List.replicate (places + 1 - digits.length) 0x30 ++ digits
  let whole := digits.take (digits.length - places)
  let fraction := Text.trimEndBy (· == 0x30) (digits.drop (digits.length - places))
  (if x.negative then [Byte.minus] else []) ++ whole ++
    if fraction == [] then [] else Byte.dot :: fraction

/-- The power of ten that a text gives after its digits: nothing, or a mark and an integer. -/
def parsePower? : Text → Option Int
  | [] => some 0
  | mark :: r =>
    let (digits, negative) := Text.signOf r
    if (mark == 0x65 || mark == 0x45) && digits != [] && digits.all Byte.isDigit then
      let n : Int := Text.natOfDigits digits
      some (if negative then -n else n)
    else none

/-- The number that a text denotes: digits with an optional point and an optional power of ten. -/
def parse? (s : Text) : Option Scientific := do
  let (unsigned, negative) := Text.signOf s
  let whole := unsigned.takeWhile Byte.isDigit
  let rest := unsigned.drop whole.length
  let (fraction, rest) :=
    match rest with
    | 0x2E :: r => (r.takeWhile Byte.isDigit, r.dropWhile Byte.isDigit)
    | _ => ([], rest)
  if whole == [] && fraction == [] then none
  else
    return ⟨negative, Text.natOfDigits (whole ++ fraction), (← parsePower? rest) - fraction.length⟩

end Scientific

/-- A number of double precision. -/
inductive Double where
  | finite (negative : Bool) (mantissa : Nat) (exponent : Int)
  | infinite (negative : Bool)
  | notNumber
  deriving DecidableEq, Repr

namespace Double

/-- The number of bits of a mantissa. -/
def precision : Nat := 53

/-- The least exponent. -/
def minExponent : Int := -1074

/-- The greatest exponent. -/
def maxExponent : Int := 971

/-- The first number that is too large for a mantissa. -/
def mantissaLimit : Nat := Nat.pow 2 precision

/-- The integer next to a quotient; a half goes to the even one. -/
def roundQuotient (num den : Nat) : Nat :=
  let twice := 2 * (num % den)
  if twice < den || (twice = den && num / den % 2 = 0) then num / den else num / den + 1

/-- A quotient times a power of two, as a quotient. -/
def scale (num den : Nat) (power : Int) : Nat × Nat :=
  (num * Nat.pow 2 power.toNat, den * Nat.pow 2 (-power).toNat)

/-- The exponent of the double next to a quotient above zero: such that the mantissa has all its
bits, unless the exponent is the least one. -/
def exponentOf (num den : Nat) : Int :=
  let guess : Int := (Nat.log2 num : Int) - Nat.log2 den
  let (a, b) := scale num den (-guess)
  max ((if a < b then guess - 1 else guess) - (precision - 1)) minExponent

/-- The double next to a decimal number; none where it would be infinite. -/
def nearest? (x : Scientific) : Option Double :=
  let magnitude : Int := (Text.decimal x.mantissa).length + x.exponent
  if x.mantissa = 0 || magnitude < -330 then some (.finite x.negative 0 0)
  else if 310 < magnitude then none
  else
    let num := x.mantissa * Nat.pow 10 x.exponent.toNat
    let den := Nat.pow 10 (-x.exponent).toNat
    let exponent := exponentOf num den
    let (a, b) := scale num den (-exponent)
    let mantissa := roundQuotient a b
    let (mantissa, exponent) :=
      if mantissa = mantissaLimit then (mantissa / 2, exponent + 1) else (mantissa, exponent)
    if maxExponent < exponent then none else some (.finite x.negative mantissa exponent)

/-- Whether `digits * 10 ^ place` is less than `units * 2 ^ power`, or equal to it where `ends`
allows that. -/
def below (ends : Bool) (digits : Nat) (place : Int) (units : Nat) (power : Int) : Bool :=
  let a := digits * Nat.pow 10 place.toNat * Nat.pow 2 (-power).toNat
  let b := units * Nat.pow 2 power.toNat * Nat.pow 10 (-place).toNat
  if ends then a ≤ b else a < b

/-- Whether `digits * 10 ^ place` lies in the interval of the numbers whose nearest double is
`mantissa * 2 ^ exponent`.  Below a power of two the interval reaches half as far; its ends belong
to it if the mantissa is even. -/
def readsBack (mantissa : Nat) (exponent : Int) (digits : Nat) (place : Int) : Bool :=
  let narrow := mantissa = mantissaLimit / 2 && minExponent < exponent
  let low := 4 * mantissa - (if narrow then 1 else 2)
  let ends := mantissa % 2 = 0
  !below (!ends) digits place low (exponent - 2) &&
    below ends digits place (4 * mantissa + 2) (exponent - 2)

/-- The decimal number at a place that reads back and is next to `mantissa * 2 ^ exponent`; of two
equally near ones the even one. -/
def atPlace? (mantissa : Nat) (exponent : Int) (place : Int) : Option Scientific :=
  let num := mantissa * Nat.pow 2 exponent.toNat * Nat.pow 10 (-place).toNat
  let den := Nat.pow 2 (-exponent).toNat * Nat.pow 10 place.toNat
  let first := roundQuotient num den
  let second := if num / den = first then first + 1 else num / den
  ([first, second].find? fun digits => readsBack mantissa exponent digits place).map
    fun digits => ⟨false, digits, place⟩

/-- The first of the places, from `place` downwards, at which a number reads back. -/
def search (mantissa : Nat) (exponent : Int) : (bound : Nat) → (place : Int) → Scientific
  | 0, place => ⟨false, mantissa, place⟩
  | bound + 1, place =>
    match atPlace? mantissa exponent place with
    | some x => x
    | none => search mantissa exponent bound (place - 1)

/-- The decimal number with the fewest digits that reads back; seventeen digits are enough. -/
def shortest (mantissa : Nat) (exponent : Int) : Scientific :=
  let whole := mantissa * Nat.pow 2 exponent.toNat / Nat.pow 2 (-exponent).toNat
  let place : Int :=
    if whole = 0 then
      let inverse := Nat.pow 2 (-exponent).toNat / mantissa
      1 - (Text.decimal inverse).length
    else (Text.decimal whole).length
  search mantissa exponent 20 place

/-- The number in positional notation, with no more digits than it takes to tell it from others. -/
def render : Double → Text
  | .finite negative 0 _ => (⟨negative, 0, 0⟩ : Scientific).render
  | .finite negative (m + 1) exponent =>
    ({ shortest (m + 1) exponent with negative := negative } : Scientific).render
  | .infinite negative => utf8 (if negative then "-Inf" else "+Inf")
  | .notNumber => utf8 "NaN"

/-- Whether the number is zero. -/
def isZero : Double → Bool
  | .finite _ mantissa _ => mantissa = 0
  | _ => false

/-- The integer part; the least integer of 64 bits if they cannot hold it. -/
def truncate : Double → Int
  | .finite negative mantissa exponent =>
    let n : Int := mantissa * Nat.pow 2 exponent.toNat / Nat.pow 2 (-exponent).toNat
    (Text.withSign negative n.toNat).toOption.getD (-Text.negativeCount)
  | _ => -Text.negativeCount

end Double

end ActionLog
