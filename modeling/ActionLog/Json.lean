import ActionLog.Text.Utf8
import ActionLog.Value

/-!
# JSON documents

A document is read as the values of its top-level members; what stands inside arrays and objects
has to be well-formed, but its contents do not matter.

* `string?`, `number?`, `value?` — a value at the start of a text, and the text after it;
* `members?` — the members of the object that a text is.

All numbers are doubles.  A document with a number that is too large for one has no values.
-/

namespace ActionLog.Json

/-- The text without blanks at its start. -/
def dropBlanks (s : Text) : Text :=
  s.dropWhile fun b =>
    b == Byte.space || b == Byte.tab || b == Byte.newline || b == Byte.carriageReturn

/-- The byte that a letter stands for after a backslash. -/
def escaped? (b : UInt8) : Option UInt8 :=
  match b with
  | 0x22 => some 0x22
  | 0x2F => some 0x2F
  | 0x5C => some 0x5C
  | 0x62 => some 0x08
  | 0x66 => some 0x0C
  | 0x6E => some 0x0A
  | 0x72 => some 0x0D
  | 0x74 => some 0x09
  | _ => none

/-- The unit that four hexadecimal digits denote. -/
def unit? (s : Text) : Option Nat :=
  if s.length < 4 then none
  else (s.take 4).foldlM (fun n b => do
    let d ← Text.digitValue? b
    if d < 16 then return 16 * n + d else none) 0

/-- The unit of an escape sequence at the start of a text. -/
def escapedUnit? (s : Text) : Option Nat := (Text.after? (utf8 "\\u") s).bind unit?

/-- The code point of a unit and the escape sequence after it, and whether the second one counts.
Units that do not make a pair are replaced. -/
def pair (first : Nat) (rest : Text) : Nat × Bool :=
  if 0xD800 ≤ first && first < 0xE000 then
    match escapedUnit? rest with
    | some second =>
      if first < 0xDC00 && 0xDC00 ≤ second && second < 0xE000 then
        (0x10000 + (first - 0xD800) * 1024 + (second - 0xDC00), true)
      else (Text.Utf8.replacement, false)
    | none => (Text.Utf8.replacement, false)
  else (first, false)

/-- The contents of a string after its opening quote; stray bytes are replaced later. -/
def string? : (fuel : Nat) → Text → Option (Text × Text)
  | 0, _ | _, [] => none
  | fuel + 1, b :: s =>
    if b == Byte.doubleQuote then some ([], s)
    else if b < 0x20 then none
    else if b == 0x5C then do
      let c ← s.head?
      match escaped? c with
      | some byte =>
        let (t, r) ← string? fuel (s.drop 1)
        return (byte :: t, r)
      | none =>
        if c != 0x75 then none
        else
          let first ← unit? (s.drop 1)
          let (code, both) := pair first (s.drop 5)
          let (t, r) ← string? fuel (s.drop (if both then 11 else 5))
          return (Text.Utf8.encode code ++ t, r)
    else (string? fuel s).map fun (t, r) => (b :: t, r)

/-- A text with replacement characters for its stray bytes. -/
def wellFormed (s : Text) : Text := (Text.pieces s).flatMap fun c => Text.Utf8.encode c.code

/-- Digits at the start of a text, of which there has to be one, and the rest. -/
def digits? (s : Text) : Option (Text × Text) :=
  let digits := s.takeWhile Byte.isDigit
  if digits == [] then none else some (digits, s.drop digits.length)

/-- The text after the digits of a fraction and of a power of ten, which may be missing. -/
def afterWhole? (s : Text) : Option Text := do
  let r ← match s with
    | 0x2E :: r => (digits? r).map (·.2)
    | _ => some s
  match r with
  | mark :: t =>
    if mark == 0x65 || mark == 0x45 then
      let t := if t.head?.any fun b => b == Byte.minus || b == 0x2B then t.drop 1 else t
      (digits? t).map (·.2)
    else some r
  | [] => some r

/-- A number at the start of a text, and the rest. -/
def number? (s : Text) : Option (Value × Text) := do
  let unsigned := (Text.after? [Byte.minus] s).getD s
  let (whole, r) ← digits? unsigned
  if whole.head? == some 0x30 && 1 < whole.length then none
  else
    let rest ← afterWhole? r
    let x ← Scientific.parse? (s.take (s.length - rest.length))
    return (.number (← Double.nearest? x), rest)

/-- A word at the start of a text, and the rest. -/
def word? (s : Text) : Option (Value × Text) :=
  ((Text.after? (utf8 "true") s).map fun r => (Value.bool true, r)).or
    (((Text.after? (utf8 "false") s).map fun r => (Value.bool false, r)).or
      ((Text.after? (utf8 "null") s).map fun r => (Value.nothing, r)))

mutual

/-- A value at the start of a text, and the rest. -/
def value? : (fuel : Nat) → Text → Option (Value × Text)
  | 0, _ => none
  | fuel + 1, s =>
    match s with
    | 0x22 :: r => (string? fuel r).map fun (t, r) => (.text (wellFormed t), r)
    | 0x5B :: r => do
      let r := dropBlanks r
      let r ← if r.head? == some 0x5D then some (r.drop 1) else items? fuel r
      return (.other, r)
    | 0x7B :: r => (object? fuel r).map fun (_, r) => (.other, r)
    | _ => (word? s).or (number? s)

/-- The text after the items of an array, of which there is at least one, and its end. -/
def items? : (fuel : Nat) → Text → Option Text
  | 0, _ => none
  | fuel + 1, s => do
    let (_, r) ← value? fuel (dropBlanks s)
    match dropBlanks r with
    | 0x2C :: r => items? fuel r
    | 0x5D :: r => return r
    | _ => none

/-- The members of an object after its opening brace, and the text after its end. -/
def object? : (fuel : Nat) → Text → Option (List (Text × Value) × Text)
  | 0, _ => none
  | fuel + 1, s =>
    match dropBlanks s with
    | 0x7D :: r => some ([], r)
    | r => fields? fuel r

/-- The members of an object, of which there is at least one, and the text after its end. -/
def fields? : (fuel : Nat) → Text → Option (List (Text × Value) × Text)
  | 0, _ => none
  | fuel + 1, s => do
    match dropBlanks s with
    | 0x22 :: r =>
      let (name, r) ← string? fuel r
      let r ← Text.after? [0x3A] (dropBlanks r)
      let (v, r) ← value? fuel (dropBlanks r)
      let field := (wellFormed name, v)
      match dropBlanks r with
      | 0x2C :: r =>
        let (more, r) ← fields? fuel r
        return (field :: more, r)
      | 0x7D :: r => return ([field], r)
      | _ => none
    | _ => none

end

/-- The members of the object that a text is; a missing value has none. -/
def members? (s : Text) : Option (List (Text × Value)) := do
  let fuel := 2 * s.length + 4
  match dropBlanks s with
  | 0x7B :: r =>
    let (fields, r) ← object? fuel r
    if dropBlanks r == [] then return fields else none
  | r =>
    let (v, r) ← word? r
    if v = .nothing && dropBlanks r == [] then return [] else none

end ActionLog.Json
