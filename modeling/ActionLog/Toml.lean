import ActionLog.Text.Utf8
import ActionLog.Value

/-!
# TOML documents

A document is read as the values of its top-level keys; what stands inside arrays and tables has to
be well-formed, but its contents do not matter.

* `Key` — a dotted key, as the list of its parts;
* `value?` — a value at the start of a text, and the text after it;
* `entries?` — the values of the keys of a document, each key with the table it belongs to;
* `members?` — the values of the top-level keys.
-/

namespace ActionLog.Toml

/-- A dotted key. -/
abbrev Key := List Text

/-- The text without blanks at its start. -/
def dropBlanks (s : Text) : Text := s.dropWhile Byte.isTabOrSpace

/-- The text after a line break, if it starts with one. -/
def afterBreak? (s : Text) : Option Text :=
  match s with
  | 0x0A :: r | 0x0D :: 0x0A :: r => some r
  | _ => none

/-- The text without a comment at its start. -/
def dropComment (s : Text) : Text :=
  if s.head? == some 0x23 then
    s.dropWhile fun b => b == Byte.tab || (0x20 ≤ b && b != 0x7F)
  else s

/-- The text without blanks, comments and line breaks at its start. -/
def dropGap : (fuel : Nat) → Text → Text
  | 0, s => s
  | fuel + 1, s =>
    let r := dropComment (dropBlanks s)
    match afterBreak? r with
    | some r => dropGap fuel r
    | none => r

/-- The text of the lines after this one, on which nothing but a comment may be left. -/
def afterLine? (s : Text) : Option Text :=
  let r := dropComment (dropBlanks s)
  if r == [] then some [] else afterBreak? r

/-- The byte that a letter stands for after a backslash. -/
def escaped? (b : UInt8) : Option UInt8 :=
  match b with
  | 0x22 => some 0x22
  | 0x5C => some 0x5C
  | 0x62 => some 0x08
  | 0x66 => some 0x0C
  | 0x6E => some 0x0A
  | 0x72 => some 0x0D
  | 0x74 => some 0x09
  | _ => none

/-- The bytes of the code point that hexadecimal digits name. -/
def hexBytes? (width : Nat) (s : Text) : Option Text := do
  if s.length < width then none
  else
    let code ← (s.take width).foldlM (fun n b => do
      let d ← Text.digitValue? b
      if d < 16 then return 16 * n + d else none) 0
    if (0xD800 ≤ code && code ≤ 0xDFFF) || 0x10FFFF < code then none
    else some (Text.Utf8.encode code)

/-- The bytes of an escape sequence after its backslash, and the text after it. -/
def escape? (s : Text) : Option (Text × Text) := do
  let (c, r) ← s.head?.map fun c => (c, s.drop 1)
  match escaped? c with
  | some b => return ([b], r)
  | none =>
    if c == 0x75 then return (← hexBytes? 4 r, r.drop 4)
    else if c == 0x55 then return (← hexBytes? 8 r, r.drop 8)
    else none

/-- Bytes that may stand in a string. -/
def isStringByte (b : UInt8) : Bool := b == Byte.tab || (0x20 ≤ b && b != 0x7F)

/-- A string on one line after its opening quote; only between double quotes there are escape
sequences. -/
def line? (quote : UInt8) : (fuel : Nat) → Text → Option (Text × Text)
  | 0, _ | _, [] => none
  | fuel + 1, b :: s =>
    if b == quote then some ([], s)
    else if b == 0x5C && quote == Byte.doubleQuote then do
      let (bytes, r) ← escape? s
      let (t, r) ← line? quote fuel r
      return (bytes ++ t, r)
    else if isStringByte b then (line? quote fuel s).map fun (t, r) => (b :: t, r)
    else none

/-- A string on several lines after its three opening quotes.  One or two quotes may stand before
the three closing ones. -/
def lines? (quote : UInt8) : (fuel : Nat) → Text → Option (Text × Text)
  | 0, _ | _, [] => none
  | fuel + 1, b :: s =>
    let quotes := ((b :: s).takeWhile (· == quote)).length
    if 3 ≤ quotes then
      if 5 < quotes then none
      else some (List.replicate (quotes - 3) quote, (b :: s).drop quotes)
    else if b == 0x5C && quote == Byte.doubleQuote then
      match afterBreak? (dropBlanks s) with
      | some r =>
        lines? quote fuel
          (r.dropWhile fun b => Byte.isTabOrSpace b || b == Byte.newline || b == Byte.carriageReturn)
      | none => do
        let (bytes, r) ← escape? s
        let (t, r) ← lines? quote fuel r
        return (bytes ++ t, r)
    else
      match afterBreak? (b :: s) with
      | some r => (lines? quote fuel r).map fun (t, r) =>
          (if b == Byte.newline then b :: t else b :: Byte.newline :: t, r)
      | none =>
        if isStringByte b then (lines? quote fuel s).map fun (t, r) => (b :: t, r) else none

/-- A string of any kind, and the text after it. -/
def string? (s : Text) : Option (Text × Text) :=
  match s with
  | q :: r =>
    if q != Byte.doubleQuote && q != Byte.singleQuote then none
    else
      match Text.after? [q, q] r with
      | some r => lines? q (r.length + 1) ((afterBreak? r).getD r)
      | none => line? q (r.length + 1) r
  | [] => none

/-- Bytes of keys without quotes. -/
def isBareByte (b : UInt8) : Bool :=
  Byte.isLetter b || Byte.isDigit b || b == Byte.underscore || b == Byte.minus

/-- A dotted key, and the text after it. -/
def key? : (fuel : Nat) → Text → Option (Key × Text)
  | 0, _ => none
  | fuel + 1, s => do
    let s := dropBlanks s
    let (part, r) ←
      match s with
      | q :: r =>
        if q == Byte.doubleQuote || q == Byte.singleQuote then line? q (r.length + 1) r
        else
          let bare := s.takeWhile isBareByte
          if bare == [] then none else some (bare, s.drop bare.length)
      | [] => none
    match dropBlanks r with
    | 0x2E :: r =>
      let (more, r) ← key? fuel r
      return (part :: more, r)
    | r => return ([part], r)

/-- Whether digits are separated by single underscores. -/
def digitsFit (isDigit : UInt8 → Bool) : (before : Bool) → Text → Bool
  | before, [] => before
  | before, b :: s =>
    if b == Byte.underscore then before && digitsFit isDigit false s
    else isDigit b && digitsFit isDigit true s

/-- The integer that a word denotes. -/
def integer? (s : Text) : Option Int :=
  let (unsigned, negative) := Text.signOf s
  let signless := unsigned.length = s.length
  let based (base : Nat) (digits : Text) : Option Int :=
    if signless && digitsFit (fun b => (Text.digitValue? b).any (· < base)) false digits then
      Text.parseSignedIn? base (digits.filter (· != Byte.underscore))
    else none
  match unsigned with
  | 0x30 :: 0x78 :: r => based 16 r
  | 0x30 :: 0x6F :: r => based 8 r
  | 0x30 :: 0x62 :: r => based 2 r
  | _ =>
    if digitsFit Byte.isDigit false unsigned &&
        (unsigned.head? != some 0x30 || unsigned.length = 1) then
      ((Text.digitsIn 10 0 unsigned).bind (Text.withSign negative)).toOption
    else none

/-- The double that a word denotes. -/
def double? (s : Text) : Option Double :=
  let (unsigned, negative) := Text.signOf s
  if unsigned == utf8 "inf" then some (.infinite negative)
  else if unsigned == utf8 "nan" then some .notNumber
  else
    let whole := unsigned.takeWhile fun b => Byte.isDigit b || b == Byte.underscore
    let rest := unsigned.drop whole.length
    let fraction := ((Text.after? [Byte.dot] rest).getD []).takeWhile fun b =>
      Byte.isDigit b || b == Byte.underscore
    let pointed := rest.head? == some Byte.dot
    let power := if pointed then rest.drop (fraction.length + 1) else rest
    let powerDigits := (Text.signOf (power.drop 1)).1
    if digitsFit Byte.isDigit false whole && (whole.head? != some 0x30 || whole.length = 1) &&
        (!pointed || digitsFit Byte.isDigit false fraction) &&
        (power == [] || digitsFit Byte.isDigit false powerDigits) then
      (Scientific.parse? (s.filter (· != Byte.underscore))).bind Double.nearest?
    else none

/-- Whether a word has the form of a date or a time, or of a date with a time. -/
def isMoment (s : Text) : Bool :=
  let shape := s.map fun b => if Byte.isDigit b then 0x30 else b
  let isTime (t : Text) : Bool :=
    t.take 8 == utf8 "00:00:00" &&
      (t.length = 8 || (t.getD 8 0 == Byte.dot && 9 < t.length && (t.drop 9).all (· == 0x30)))
  let isZone (t : Text) : Bool :=
    t == [] || t == utf8 "Z" || t == utf8 "z" || t == utf8 "+00:00" || t == utf8 "-00:00"
  isTime shape || shape == utf8 "0000-00-00" ||
    (shape.take 10 == utf8 "0000-00-00" &&
      ((shape.drop 10).head?.any fun b => b == 0x54 || b == 0x74 || b == Byte.space) &&
      let time := (shape.drop 11).takeWhile fun b => b == 0x30 || b == 0x3A || b == Byte.dot
      isTime time && isZone (shape.drop (11 + time.length)))

/-- A word, and the text after it; a date may be followed by a blank and a time. -/
def word? (s : Text) : Option (Value × Text) := do
  let isWordByte (b : UInt8) : Bool := isBareByte b || [0x2B, 0x2E, 0x3A].contains b
  let word := s.takeWhile isWordByte
  let longer := word ++ [Byte.space] ++ (s.drop (word.length + 1)).takeWhile isWordByte
  if s.getD word.length 0 == Byte.space && isMoment longer then return (.other, s.drop longer.length)
  else
    let v ←
      if word == utf8 "true" then some (Value.bool true)
      else if word == utf8 "false" then some (Value.bool false)
      else if isMoment word then some .other
      else ((integer? word).map .int).or ((double? word).map .number)
    return (v, s.drop word.length)

mutual

/-- A value at the start of a text, and the text after it. -/
def value? : (fuel : Nat) → Text → Option (Value × Text)
  | 0, _ => none
  | fuel + 1, s =>
    match s with
    | 0x22 :: _ | 0x27 :: _ => (string? s).map fun (t, r) => (.text t, r)
    | 0x5B :: r => (items? fuel r).map fun r => (.other, r)
    | 0x7B :: r =>
      match dropBlanks r with
      | 0x7D :: r => some (.other, r)
      | r => (fields? fuel [] r).map fun r => (.other, r)
    | _ => word? s

/-- The text after the items of an array and its closing bracket. -/
def items? : (fuel : Nat) → Text → Option Text
  | 0, _ => none
  | fuel + 1, s => do
    match dropGap s.length s with
    | 0x5D :: r => return r
    | r =>
      let (_, r) ← value? fuel r
      match dropGap r.length r with
      | 0x2C :: r => items? fuel r
      | 0x5D :: r => return r
      | _ => none

/-- The text after the fields of an inline table, of which there is at least one, and its closing
brace. -/
def fields? : (fuel : Nat) → (seen : List Key) → Text → Option Text
  | 0, _, _ => none
  | fuel + 1, seen, s => do
    let (key, r) ← key? fuel s
    let r ← Text.after? [Byte.equals] r
    let (_, r) ← value? fuel (dropBlanks r)
    if seen.any fun k => k.isPrefixOf key || key.isPrefixOf k then none
    else
      match dropBlanks r with
      | 0x2C :: r => fields? fuel (key :: seen) r
      | 0x7D :: r => return r
      | _ => none

end

/-- A value with its key and the table in which it stands; the key has the table's parts first. -/
structure Entry where
  table : Key
  key : Key
  value : Value

/-- What was defined so far: values, tables with headers of their own, and arrays of tables. -/
structure Defined where
  values : List Entry
  tables : List Key
  arrays : List Key

/-- Adds a value, unless its key or a part of it has a value already. -/
def Defined.add? (d : Defined) (e : Entry) : Option Defined :=
  if d.values.any (fun v => v.key.isPrefixOf e.key || e.key.isPrefixOf v.key) ||
      d.tables.contains e.key || d.arrays.contains e.key then none
  else some { d with values := d.values ++ [e] }

/-- Opens a table; one with a header of its own, or that a key made, cannot be opened again, unless
it is another one of an array. -/
def Defined.open? (d : Defined) (array : Bool) (key : Key) : Option Defined :=
  if d.values.any fun v => v.key.isPrefixOf key then none
  else if array then
    if d.tables.contains key then none
    else
      let outside (k : Key) : Bool := !key.isPrefixOf k
      some ⟨d.values.filter fun v => outside v.key, d.tables.filter outside,
        key :: d.arrays.filter outside⟩
  else if d.tables.contains key || d.arrays.contains key ||
      d.values.any (fun v => key.isPrefixOf v.key && v.table.length < key.length) then none
  else some { d with tables := key :: d.tables }

/-- The header of a table: whether it is one of an array, its key, and the text after it. -/
def header? (s : Text) : Option (Bool × Key × Text) :=
  match Text.after? [0x5B, 0x5B] s with
  | some r => do
    let (key, r) ← key? (r.length + 1) r
    return (true, key, ← Text.after? [0x5D, 0x5D] r)
  | none => do
    let r ← Text.after? [0x5B] s
    let (key, r) ← key? (r.length + 1) r
    return (false, key, ← Text.after? [0x5D] r)

/-- What a document defines, line by line, inside a table. -/
def entries? : (fuel : Nat) → (table : Key) → Defined → Text → Option Defined
  | 0, _, d, _ => some d
  | fuel + 1, table, d, s => do
    let r := dropGap (s.length + 1) s
    match r with
    | [] => return d
    | 0x5B :: _ =>
      let (array, key, r) ← header? r
      entries? fuel key (← d.open? array key) (← afterLine? r)
    | _ =>
      let (key, r) ← key? (r.length + 1) r
      let r ← Text.after? [Byte.equals] r
      let (v, r) ← value? (r.length + 2) (dropBlanks r)
      entries? fuel table (← d.add? ⟨table, table ++ key, v⟩) (← afterLine? r)

/-- The values of the top-level keys; those that name tables have no value of their own. -/
def members? (s : Text) : Option (List (Text × Value)) := do
  if !Text.isValid s then none
  else
    let d ← entries? (s.length + 1) [] ⟨[], [], []⟩ s
    let first (v : Value) (key : Key) : Option (Text × Value) :=
      match key with
      | [name] => some (name, v)
      | name :: _ => some (name, .other)
      | [] => none
    return (d.values.filterMap fun e => first e.value e.key) ++
      (d.tables ++ d.arrays).filterMap (first .other)

end ActionLog.Toml
