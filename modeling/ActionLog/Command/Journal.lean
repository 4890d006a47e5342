import ActionLog.Pipeline
import ActionLog.Text.Blank
import ActionLog.Text.Integer
import ActionLog.Text.Quoted

/-!
# The debug log

* `levelOf?` — the level that a text names: a word with an optional offset;
* `size` — a number of bytes for a reader, in units of a thousand;
* `record` — one line of the log, a message with attributes;
* `eventText` — what an event writes, at a level.
-/

namespace ActionLog.Command

/-- A letter as a capital.  Besides the small ASCII letters, the dotless i has one in ASCII. -/
def capital (p : Text.Piece) : Text :=
  if 0x61 ≤ p.code && p.code ≤ 0x7A then [(p.code - 0x20).toUInt8]
  else if p.code = 0x131 then utf8 "I"
  else p.bytes

/-- The level of a word. -/
def levelWord? (word : Text) : Option Int :=
  List.lookup ((Text.pieces word).flatMap capital)
    [(utf8 "DEBUG", -4), (utf8 "INFO", 0), (utf8 "WARN", 4), (utf8 "ERROR", 8)]

/-- The level that a text names: a word, and a sign with digits to shift it. -/
def levelOf? (s : Text) : Option Int := do
  let word := s.takeWhile fun b => b != Byte.minus && b != 0x2B
  let offset := s.drop word.length
  let shift ← if offset == [] then some 0 else Text.parseDecimal? offset
  let level ← levelWord? word
  return (level + shift).bmod Text.wordCount

/-- Whether a level shows debug records. -/
def showsDebug (level : Int) : Bool := level ≤ -4

/-- The units of sizes. -/
def units : List Text := ["B", "kB", "MB", "GB", "TB", "PB", "EB"].map utf8

/-- Tenths of a unit: one decimal below ten units, and else none, where a half goes to the even
neighbour. -/
def tenthsText (tenths : Nat) : Text :=
  if tenths < 100 then
    Text.decimal (tenths / 10) ++ [Byte.dot] ++ Text.decimal (tenths % 10)
  else
    let whole := tenths / 10
    let part := tenths % 10
    Text.decimal (if part < 5 || (part = 5 && whole % 2 = 0) then whole else whole + 1)

/-- A size in the largest unit that it fills. -/
def sizeIn (n scale : Nat) : List Text → Text
  | [] => Text.decimal n
  | [unit] => tenthsText ((20 * n + scale) / (2 * scale)) ++ [Byte.space] ++ unit
  | unit :: units =>
    if 1000 * scale ≤ n then sizeIn n (1000 * scale) units
    else tenthsText ((20 * n + scale) / (2 * scale)) ++ [Byte.space] ++ unit

/-- A number of bytes for a reader. -/
def size (n : Nat) : Text :=
  if n < 10 then Text.decimal n ++ utf8 " B" else sizeIn n 1 units

/-- Whether a value has to be quoted in a record. -/
def needsQuotes (s : Text) : Bool :=
  s == [] || (Text.pieces s).any fun p =>
    if p.code < 0x80 then
      p.code ≤ 0x20 || p.code = Byte.equals.toNat || p.code = Byte.doubleQuote.toNat
    else
      p.code = Text.Utf8.replacement || p.isStray || Text.blanks.contains p.bytes ||
        !Text.isPrintable p.code

/-- A value in a record. -/
def fieldText (s : Text) : Text := if needsQuotes s then Text.quote s else s

/-- One line of the log. -/
def record (message : String) (attributes : List (String × Text)) : Text :=
  utf8 "level=DEBUG msg=" ++ fieldText (utf8 message) ++
    (attributes.flatMap fun (key, value) =>
      [Byte.space] ++ utf8 key ++ [Byte.equals] ++ fieldText value) ++ [Byte.newline]

/-- The record of reading a log. -/
def readRecord (name contents : Text) : Text :=
  record "read log" [("name", name), ("size", size contents.length)]

/-- What an event writes; records need a level that shows them, reports do not. -/
def eventText (level : Int) : Event → Text
  | .reported message => message ++ [Byte.newline]
  | .cleaning block lines => shown
      (record "cleaning block" [("block", Text.decimal block), ("lines", Text.decimal lines)])
  | .done stage changed => shown
      (record "pass done"
        [("pass", stage.label), ("changed", utf8 (if changed then "true" else "false"))])
  | .cleaned blocks failed => shown
      (record "cleaned log" [("blocks", Text.decimal blocks), ("failed", Text.decimal failed)])
where
  shown (line : Text) : Text := if showsDebug level then line else []

end ActionLog.Command
