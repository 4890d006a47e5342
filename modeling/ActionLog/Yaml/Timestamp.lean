import ActionLog.Text.Decimal

/-!
# Points in time

The plain scalars that denote a day or a point in time:

* `2001-12-14`;
* `2001-12-14T21:59:43.10-05:00`, with a `t` or a `T` and a zone, which is `Z` or an offset;
* `2001-12-14 21:59:43.10`, without a zone.

Months, days, hours, minutes and seconds have one or two digits; the fraction may be missing.

* `isTimestamp` — whether a plain scalar is one of these.
-/

namespace ActionLog.Yaml

/-- A number of one or two digits, and the rest. -/
def number? : Text → Option (Nat × Text)
  | [] => none
  | [a] => if Byte.isDigit a then some (Text.natOfDigits [a], []) else none
  | a :: b :: r =>
    if !Byte.isDigit a then none
    else if Byte.isDigit b then some (Text.natOfDigits [a, b], r)
    else some (Text.natOfDigits [a], b :: r)

/-- A number of one or two digits between two bounds, and the rest. -/
def within? (least most : Nat) (s : Text) : Option Text := do
  let (n, r) ← number? s
  if least ≤ n && n ≤ most then some r else none

/-- Whether February has twenty-nine days. -/
def isLeap (year : Nat) : Bool := year % 4 = 0 && (year % 100 != 0 || year % 400 = 0)

/-- The number of days of a month. -/
def daysIn (year month : Nat) : Nat :=
  if month = 2 then (if isLeap year then 29 else 28)
  else if month = 4 || month = 6 || month = 9 || month = 11 then 30
  else 31

/-- The text after a date. -/
def afterDate? (s : Text) : Option Text := do
  let year := s.take 4
  if year.length = 4 && year.all Byte.isDigit then
    let (month, r) ← number? (← Text.after? [Byte.minus] (s.drop 4))
    let (day, r) ← number? (← Text.after? [Byte.minus] r)
    if 1 ≤ month && month ≤ 12 && 1 ≤ day && day ≤ daysIn (Text.natOfDigits year) month then
      some r
    else none
  else none

/-- The text after a fraction of a second, which may be missing. -/
def afterFraction (s : Text) : Text :=
  match s with
  | mark :: d :: r =>
    if (mark == Byte.dot || mark == Byte.comma) && Byte.isDigit d then r.dropWhile Byte.isDigit
    else s
  | _ => s

/-- The text after a time of day. -/
def afterTime? (s : Text) : Option Text := do
  let r ← within? 0 23 s
  let r ← within? 0 59 (← Text.after? [0x3A] r)
  let r ← within? 0 59 (← Text.after? [0x3A] r)
  return afterFraction r

/-- Whether a text is a time zone. -/
def isZone (s : Text) : Bool :=
  match s with
  | [0x5A] => true
  | [sign, a, b, 0x3A, c, d] =>
    (sign == Byte.minus || sign == 0x2B) && [a, b, c, d].all Byte.isDigit &&
      Text.natOfDigits [a, b] ≤ 24 && Text.natOfDigits [c, d] ≤ 60
  | _ => false

/-- Whether a plain scalar is a day or a point in time. -/
def isTimestamp (s : Text) : Bool :=
  match afterDate? s with
  | none => false
  | some [] => true
  | some (b :: r) =>
    if b == 0x54 || b == 0x74 then (afterTime? r).any isZone
    else b == Byte.space && (afterTime? (r.dropWhile (· == Byte.space))).any List.isEmpty

end ActionLog.Yaml
