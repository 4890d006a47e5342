import ActionLog.Yaml.Cursor

/-!
# Scalars of a document

Plain, quoted and block scalars.  Where a plain or quoted scalar goes on over several lines, the
blanks around a line break are dropped; one break reads as a space, and the further ones as
themselves.

* `Gap` — what stands between two words of a scalar, and `Gap.text`, what it reads as;
* `plainScalar` — a scalar without quotes, and whether a line break was passed after it;
* `quotedScalar` — a scalar after its opening quote;
* `blockScalar` — the lines below a `|` or a `>`.
-/

namespace ActionLog.Yaml

/-- What stands between two words of a scalar: blanks, or a first line break and further ones. -/
structure Gap where
  crossed : Bool := false
  blanks : List Char := []
  first : List Char := []
  further : List Char := []

/-- What a gap reads as. -/
def Gap.text (g : Gap) : List Char :=
  if g.crossed then
    if g.first == ['\n'] then (if g.further.isEmpty then [' '] else g.further)
    else g.first ++ g.further
  else g.blanks

/-- A gap between two words.  A tab after a line break has to stand in column `tabs` or further. -/
def scanGap (tabs : Nat) : (fuel : Nat) → Gap → Scan Gap
  | 0, g => return g
  | fuel + 1, g => do
    need 1
    let c ← get
    match c.rest with
    | [] => return g
    | x :: _ =>
      if isBlank x then
        if g.crossed && x = '\t' && c.column < tabs then failure
        else
          skip
          scanGap tabs fuel (if g.crossed then g else { g with blanks := g.blanks ++ [x] })
      else if isBreak x then
        let b ← skipBreak
        scanGap tabs fuel
          (if g.crossed then { g with further := g.further ++ b }
            else { g with crossed := true, blanks := [], first := b })
      else return g

/-- The marks of flow collections, which end plain scalars inside them. -/
def isFlowMark (x : Char) : Bool :=
  x = ',' || x = '?' || x = '[' || x = ']' || x = '\x7b' || x = '\x7d'

/-- A word of a plain scalar: up to a gap, or a colon before a gap, or a mark of a flow
collection. -/
def plainWord (flow : Bool) : (fuel : Nat) → Scan (List Char)
  | 0 => return []
  | fuel + 1 => do
    need 2
    let c ← get
    match c.rest with
    | [] => return []
    | x :: _ =>
      if isBlank x || isBreak x || (x = ':' && c.gapAt 1) || (flow && isFlowMark x) then return []
      else
        skip
        return x :: (← plainWord flow fuel)

/-- The words of a plain scalar after a gap, and whether the gap after the last one crosses lines.
Outside flow collections its lines are indented to `indent` or further. -/
def plainWords (flow : Bool) (indent : Nat) : (fuel : Nat) → Gap → Scan (List Char × Bool)
  | 0, g => return ([], g.crossed)
  | fuel + 1, g => do
    need 4
    let c ← get
    if c.seesMarker || c.sees '#' then return ([], g.crossed)
    let word ← plainWord flow fuel
    if !(← get).inGap then
      return (if word.isEmpty then [] else g.text ++ word, g.crossed && word.isEmpty)
    let next ← scanGap indent fuel (if word.isEmpty then g else {})
    if !flow && (← get).column < indent then return (g.text ++ word, next.crossed)
    let (more, crossed) ← plainWords flow indent fuel next
    return (g.text ++ word ++ more, crossed)

/-- A plain scalar, and whether a line break was passed after it. -/
def plainScalar (flow : Bool) (indent : Nat) : Scan (List Char × Bool) := do
  plainWords flow indent ((← get).bound + 1) {}

/-- The character that a letter stands for after a backslash. -/
def escaped? (x : Char) : Option Char :=
  match x with
  | '0' => some '\x00'
  | 'a' => some '\x07'
  | 'b' => some '\x08'
  | 't' | '\t' => some '\t'
  | 'n' => some '\n'
  | 'v' => some '\x0b'
  | 'f' => some '\x0c'
  | 'r' => some '\r'
  | 'e' => some '\x1b'
  | ' ' => some ' '
  | '"' => some '"'
  | '\'' => some '\''
  | '\\' => some '\\'
  | 'N' => some '\u0085'
  | '_' => some '\u00a0'
  | 'L' => some '\u2028'
  | 'P' => some '\u2029'
  | _ => none

/-- The number of hexadecimal digits that follow a letter after a backslash. -/
def hexWidth? (x : Char) : Option Nat :=
  match x with
  | 'x' => some 2
  | 'u' => some 4
  | 'U' => some 8
  | _ => none

/-- The value of a hexadecimal digit. -/
def hexValue? (x : Char) : Option Nat :=
  if '0' ≤ x && x ≤ '9' then some (x.toNat - 0x30)
  else if 'a' ≤ x && x ≤ 'f' then some (x.toNat - 0x57)
  else if 'A' ≤ x && x ≤ 'F' then some (x.toNat - 0x37)
  else none

/-- The code point that hexadecimal digits name. -/
def hexCode? (width : Nat) (digits : List Char) : Option Nat := do
  if digits.length < width then none
  else
    let code ← (digits.take width).foldlM (fun n x => (hexValue? x).map (16 * n + ·)) 0
    if (0xD800 ≤ code && code ≤ 0xDFFF) || 0x10FFFF < code then none else some code

/-- The character that an escape sequence denotes, after its backslash. -/
def escape : Scan Char := do
  match (← get).rest with
  | [] => failure
  | x :: _ =>
    skip
    match escaped? x with
    | some y => return y
    | none =>
      let width ← hexWidth? x
      need width
      let code ← hexCode? width (← get).rest
      skipMany width
      return Char.ofNat code

/-- A word of a quoted scalar: up to a gap, to its closing quote, or past an escaped line break, and
whether there was one. -/
def quotedWord (quote : Char) : (fuel : Nat) → Scan (List Char × Bool)
  | 0 => return ([], false)
  | fuel + 1 => do
    need 2
    let c ← get
    match c.rest with
    | [] => return ([], false)
    | x :: r =>
      if isBlank x || isBreak x then return ([], false)
      else if x = quote then
        if quote = '\'' && r.head? == some quote then
          skip; skip
          let (word, broken) ← quotedWord quote fuel
          return (quote :: word, broken)
        else return ([], false)
      else if quote = '"' && x = '\\' then
        skip
        if r.head?.any isBreak then
          let _ ← skipBreak
          return ([], true)
        else
          let y ← escape
          let (word, broken) ← quotedWord quote fuel
          return (y :: word, broken)
      else
        skip
        let (word, broken) ← quotedWord quote fuel
        return (x :: word, broken)

/-- The words of a quoted scalar with what stands between them, up to its closing quote. -/
def quotedWords (quote : Char) : (fuel : Nat) → Scan (List Char)
  | 0 => failure
  | fuel + 1 => do
    need 4
    let c ← get
    if c.seesMarker || c.atEnd then failure
    let (word, broken) ← quotedWord quote fuel
    need 1
    if (← get).sees quote then
      skip
      return word
    let g ← scanGap 0 fuel { crossed := broken }
    return word ++ g.text ++ (← quotedWords quote fuel)

/-- A quoted scalar after its opening quote. -/
def quotedScalar (quote : Char) : Scan (List Char) := do
  quotedWords quote ((← get).bound + 1)

/-- How a block scalar ends: the line breaks after its last line are dropped, or one of them is
kept, or all are. -/
inductive Chomp where
  | strip
  | clip
  | keep
  deriving DecidableEq, Repr

/-- The mark that says how a block scalar ends, if it is there. -/
def chompMark : Scan (Option Chomp) := do
  need 1
  match (← get).rest with
  | '+' :: _ => skip; return some .keep
  | '-' :: _ => skip; return some .strip
  | _ => return none

/-- The digit that says how far a block scalar is indented, if it is there. -/
def indentMark : Scan (Option Nat) := do
  need 1
  match (← get).rest with
  | x :: _ =>
    if '1' ≤ x && x ≤ '9' then skip; return some (x.toNat - 0x30)
    else if x = '0' then failure
    else return none
  | [] => return none

/-- The marks of a block scalar, in any order. -/
def blockMarks : Scan (Chomp × Option Nat) := do
  match ← chompMark with
  | some chomp => return (chomp, ← indentMark)
  | none =>
    match ← indentMark with
    | some indent => return ((← chompMark).getD .clip, some indent)
    | none => return (.clip, none)

/-- Passes over blanks, a comment and the line break after them; nothing else may be there. -/
def endLine : Scan Unit := do
  let _ ← takeAll isBlank
  if (← get).sees '#' then
    let _ ← takeAll fun x => !isBreak x
  let c ← get
  if c.rest.head?.any isBreak then
    let _ ← skipBreak
  else if !c.atEnd then failure

/-- Passes over indentation and empty lines; gives the breaks and the greatest indentation.  An
indentation of zero is one that is not known yet. -/
def blockBreaks (indent : Nat) : (fuel most : Nat) → Scan (List Char × Nat)
  | 0, most => return ([], most)
  | fuel + 1, most => do
    let c ← get
    let _ ← takeFrom (· = ' ') (if indent = 0 then c.rest else c.rest.take (indent - c.column))
    need 1
    let c ← get
    let most := max most c.column
    if (indent = 0 || c.column < indent) && c.sees '\t' then failure
    else if c.rest.head?.any isBreak then
      let b ← skipBreak
      let (breaks, most) ← blockBreaks indent fuel most
      return (b ++ breaks, most)
    else return ([], most)

/-- The lines of a block scalar that are indented to `indent`, after the breaks `first` and
`further`; `spaced` tells whether the line before started with a blank.  The breaks after the last
line are given apart. -/
def blockLines (literal : Bool) (indent : Nat) : (fuel : Nat) → (spaced : Bool) →
    (first further : List Char) → Scan (List Char × List Char × List Char)
  | 0, _, first, further => return ([], first, further)
  | fuel + 1, spaced, first, further => do
    let c ← get
    if c.column = indent && !c.atEnd then
      let starts := c.rest.head?.any isBlank
      let joint :=
        if !literal && !spaced && !starts && first == ['\n'] then
          (if further.isEmpty then [' '] else [])
        else first
      let line ← takeAll fun x => !isBreak x
      let b ← skipBreak
      let (breaks, _) ← blockBreaks indent fuel 0
      let (text, first, more) ← blockLines literal indent fuel starts b breaks
      return (joint ++ further ++ line ++ text, first, more)
    else return ([], first, further)

/-- A block scalar after its mark, inside a collection indented to `outer`. -/
def blockScalar (literal : Bool) (outer : Int) : Scan (List Char) := do
  let (chomp, mark) ← blockMarks
  endLine
  let fuel := (← get).bound + 1
  let given := (mark.map fun n => n + outer.toNat).getD 0
  let (breaks, most) ← blockBreaks given fuel 0
  let indent := if given = 0 then max most (max (outer + 1).toNat 1) else given
  need 1
  let (text, first, further) ← blockLines literal indent fuel false [] breaks
  return text ++ (if chomp = .strip then [] else first) ++ (if chomp = .keep then further else [])

end ActionLog.Yaml
