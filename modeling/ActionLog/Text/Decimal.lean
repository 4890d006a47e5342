import ActionLog.Text.Basic

/-!
# Decimal numerals

The numerals that end generated names and stand in messages: no sign for zero and above, no
leading zeros.
-/

namespace ActionLog.Text

/-- The digit of a number below ten. -/
def digit (n : Nat) : UInt8 := (0x30 + n).toUInt8

/-- The numeral of a natural number. -/
def decimal (n : Nat) : Text :=
  if n < 10 then [digit n] else decimal (n / 10) ++ [digit (n % 10)]
termination_by n

/-- The numeral of an integer, with a minus sign below zero. -/
def signed : Int → Text
  | .ofNat n => decimal n
  | .negSucc n => Byte.minus :: decimal (n + 1)

/-- The number that a run of digits denotes. -/
def natOfDigits (s : Text) : Nat := s.foldl (fun n b => 10 * n + (b.toNat - 0x30)) 0

end ActionLog.Text
