import ActionLog.Yaml.Token

/-!
# The stream of tokens

Tokens are taken one after the other, and three are always looked at in advance, so that what is
malformed shortly after a document spoils it too.

Whether a scalar is a key shows only at the colon after it, which has to come on the same line and
within `keyLength` characters.  Until then the scalar is a `Candidate`; at the colon the mark of a
key is put before it, and before that the start of a mapping if it is indented further than the
block around it.

* `Stream` — the state of reading: a cursor, the blocks around it, the candidates, and the tokens
  that were looked at;
* `fetch` — looks at one more token;
* `peek`, `take` — the next token.
-/

namespace ActionLog.Yaml

/-- A place where a key may have started: the number of its token, and whether the block around it
has room for nothing else. -/
structure Candidate where
  token : Nat
  required : Bool
  index : Nat
  line : Nat
  column : Nat

/-- The state of reading tokens. -/
structure Stream where
  cursor : Cursor
  /-- Whether the first token was looked at. -/
  started : Bool := false
  /-- How many flow collections are open. -/
  flow : Nat := 0
  /-- The column of the innermost block, and those of the blocks around it. -/
  indent : Int := -1
  outer : List Int := []
  /-- Whether a key may start here. -/
  keyAllowed : Bool := true
  /-- The candidates, for each open flow collection and the block around them. -/
  candidates : List (Option Candidate) := [none]
  /-- The tokens that were looked at and not taken, and how many were taken. -/
  queue : List Token := []
  taken : Nat := 0

/-- Readers of tokens. -/
abbrev Tokens := StateT Stream Option

/-- The most characters from the start of a key to its colon. -/
def keyLength : Nat := 1024

/-- The most collections that may be open. -/
def maxDepth : Nat := 10000

/-- A reader of characters as a reader of tokens. -/
def scan {α : Type} (p : Scan α) : Tokens α := do
  let s ← get
  let (a, cursor) ← p.run s.cursor
  set { s with cursor := cursor }
  return a

/-- Adds a token to those looked at. -/
def push (t : Token) : Tokens Unit := modify fun s => { s with queue := s.queue ++ [t] }

/-- Adds a token before the one with a number. -/
def pushBefore (number : Nat) (t : Token) : Tokens Unit := modify fun s =>
  let k := number - s.taken
  { s with queue := s.queue.take k ++ t :: s.queue.drop k }

/-- Whether a key can still start where a candidate is; fails if one has to. -/
def Candidate.holds (k : Candidate) (c : Cursor) : Option Bool :=
  if k.line < c.line || k.index + keyLength < c.index then
    if k.required then none else some false
  else some true

/-- Gives up the innermost candidate; fails if a key has to start there. -/
def dropCandidate : Tokens Unit := do
  let s ← get
  match s.candidates with
  | some k :: more =>
    if k.required then failure
    set { s with candidates := none :: more }
  | _ => return

/-- Makes the place of the next token a candidate, if a key may start there. -/
def addCandidate : Tokens Unit := do
  let s ← get
  if s.keyAllowed then
    dropCandidate
    let c := s.cursor
    let k : Candidate :=
      { token := s.taken + s.queue.length
        required := s.flow = 0 && s.indent = c.column
        index := c.index, line := c.line, column := c.column }
    modify fun s => { s with candidates := some k :: s.candidates.drop 1 }

/-- Says whether a key may start next. -/
def allowKey (allowed : Bool) : Tokens Unit := modify fun s => { s with keyAllowed := allowed }

/-- Opens a block at a column, if it is indented further than the one around it; its first token
comes before the one with a number, or last. -/
def openBlock (column : Nat) (number : Option Nat) (t : Token) : Tokens Unit := do
  let s ← get
  if s.flow = 0 && s.indent < column then
    if maxDepth ≤ s.outer.length then failure
    set { s with indent := column, outer := s.indent :: s.outer }
    match number with
    | some n => pushBefore n t
    | none => push t

/-- Closes the blocks that are indented further than a column. -/
def closeBlocks (column : Int) : (fuel : Nat) → Tokens Unit
  | 0 => return
  | fuel + 1 => do
    let s ← get
    if s.flow = 0 && column < s.indent then
      set { s with
        indent := s.outer.head?.getD (-1), outer := s.outer.drop 1
        queue := s.queue ++ [Token.blockEnd] }
      closeBlocks column fuel

/-- Closes the blocks that are indented further than a column. -/
def dedent (column : Int) : Tokens Unit := do closeBlocks column ((← get).outer.length + 1)

/-- How far ahead a comment is looked for. -/
def lookahead : Nat := 512

/-- The number of characters up to the next comment, with nothing but blanks and line breaks of one
byte before it. -/
def commentAhead? : (bound : Nat) → List Char → Option Nat
  | 0, _ | _, [] => none
  | bound + 1, x :: r =>
    if x = '#' then some 0
    else if isBlank x || x = '\n' || x = '\r' then (commentAhead? bound r).map (· + 1)
    else none

/-- Passes over characters, of which some may be line breaks, up to an index. -/
def skipTo (index : Nat) : (fuel : Nat) → Scan Unit
  | 0 => return
  | fuel + 1 => do
    need 1
    let c ← get
    if c.index < index then
      if c.rest.head?.any isBreak then
        let _ ← skipBreak
      else skip
      skipTo index fuel

/-- Passes over a comment, and over those on the lines after it. -/
def skipComments : (fuel : Nat) → Scan Unit
  | 0 => return
  | fuel + 1 => do
    let _ ← takeAll fun x => !isBreak x
    let c ← get
    match c.rest with
    | x :: r =>
      if x = '\n' || x = '\r' then
        match commentAhead? (lookahead - 1) r with
        | some n =>
          skipTo (c.index + n + 1) (n + 1)
          skipComments fuel
        | none => return
    | [] => return

/-- Passes over a comment on the line of the last token. -/
def skipLineComment : Scan Unit := do
  let c ← get
  if !c.fresh then
    let blanks := (c.rest.takeWhile isBlank).length
    if blanks < lookahead && c.rest[blanks]? == some '#' then
      let _ ← takeAll fun x => !isBreak x

/-- Passes over blanks, line breaks and comments.  Tabs may stand between tokens, but not where a
key may start outside flow collections. -/
def skipToToken : (fuel : Nat) → Tokens Unit
  | 0 => return
  | fuel + 1 => do
    scan (need 1)
    let c := (← get).cursor
    if c.column = 0 && c.marked then scan skip
    let tabs := 0 < (← get).flow || !(← get).keyAllowed
    let _ ← scan (takeAll fun x => x = ' ' || (tabs && x = '\t'))
    let c := (← get).cursor
    if c.sees '#' then scan (skipComments c.bound)
    if (← get).cursor.rest.head?.any isBreak then
      let _ ← scan skipBreak
      if (← get).flow = 0 then allowKey true
      skipToToken fuel

/-- The end of the text. -/
def fetchEnd : Tokens Unit := do
  modify fun s =>
    let c := s.cursor
    if c.column = 0 then s else { s with cursor := { c with column := 0, line := c.line + 1 } }
  dedent (-1)
  dropCandidate
  allowKey false
  push .streamEnd

/-- A directive. -/
def fetchDirective : Tokens Unit := do
  dedent (-1)
  dropCandidate
  allowKey false
  scan skip
  push (← scan directive)

/-- A mark at the start or the end of a document. -/
def fetchMarker (t : Token) : Tokens Unit := do
  dedent (-1)
  dropCandidate
  allowKey false
  scan (skipMany 3)
  push t

/-- An opening bracket or brace. -/
def fetchOpen (t : Token) : Tokens Unit := do
  addCandidate
  let s ← get
  if maxDepth ≤ s.flow then failure
  set { s with flow := s.flow + 1, candidates := none :: s.candidates, keyAllowed := true }
  scan skip
  push t

/-- A closing bracket or brace. -/
def fetchClose (t : Token) : Tokens Unit := do
  dropCandidate
  modify fun s =>
    if s.flow = 0 then s else { s with flow := s.flow - 1, candidates := s.candidates.drop 1 }
  allowKey false
  scan skip
  push t

/-- A comma. -/
def fetchComma : Tokens Unit := do
  dropCandidate
  allowKey true
  scan skip
  push .comma

/-- The dash of a sequence. -/
def fetchDash : Tokens Unit := do
  let s ← get
  if s.flow = 0 then
    if !s.keyAllowed then failure
    openBlock s.cursor.column none .blockSequence
  dropCandidate
  allowKey true
  scan skip
  push .dash

/-- The mark of a key. -/
def fetchKey : Tokens Unit := do
  let s ← get
  if s.flow = 0 then
    if !s.keyAllowed then failure
    openBlock s.cursor.column none .blockMapping
  dropCandidate
  allowKey (s.flow = 0)
  scan skip
  push .key

/-- The colon before a value. -/
def fetchValue : Tokens Unit := do
  let s ← get
  let candidate := s.candidates.head?.join
  let holds ← (candidate.map fun k => k.holds s.cursor).getD (some false)
  match candidate, holds with
  | some k, true =>
    pushBefore k.token .key
    openBlock k.column (some k.token) .blockMapping
    modify fun s => { s with candidates := none :: s.candidates.drop 1 }
    allowKey false
  | _, _ =>
    if s.flow = 0 then
      if !s.keyAllowed then failure
      openBlock s.cursor.column none .blockMapping
    modify fun s => { s with candidates := none :: s.candidates.drop 1 }
    allowKey (s.flow = 0)
  scan skip
  push .value

/-- A scalar, or a name with its mark, where a key may start. -/
def fetchAtom (t : Scan Token) : Tokens Unit := do
  addCandidate
  allowKey false
  push (← scan t)

/-- A plain scalar; a key may start on the line after it. -/
def fetchPlain : Tokens Unit := do
  addCandidate
  allowKey false
  let s ← get
  let (text, crossed) ← scan (plainScalar (0 < s.flow) (s.indent + 1).toNat)
  if crossed then allowKey true
  push (.scalar true text)

/-- A block scalar. -/
def fetchBlock (literal : Bool) : Tokens Unit := do
  dropCandidate
  allowKey true
  scan skip
  push (.scalar false (← scan (blockScalar literal (← get).indent)))

/-- Whether a plain scalar can start so. -/
def startsPlain (flow : Bool) (x : Char) (c : Cursor) : Bool :=
  if x = '-' then !(c.rest[1]?).any isBlank
  else if x = '?' || x = ':' then !flow && !c.gapAt 1
  else !(isBlank x || isBreak x || [',', '[', ']', '\x7b', '\x7d', '#', '&', '*', '!', '|', '>',
    '\'', '"', '%', '@', '\x60'].contains x)

/-- The token that starts with a character. -/
def fetchToken (x : Char) : Tokens Unit := do
  let s ← get
  let c := s.cursor
  let flow := 0 < s.flow
  if x = '[' then fetchOpen .openBracket
  else if x = '\x7b' then fetchOpen .openBrace
  else if x = ']' then fetchClose .closeBracket
  else if x = '\x7d' then fetchClose .closeBrace
  else if x = ',' then fetchComma
  else if x = '-' && c.gapAt 1 then fetchDash
  else if x = '?' && (flow || c.gapAt 1) then fetchKey
  else if x = ':' && (flow || c.gapAt 1) then fetchValue
  else if x = '*' then fetchAtom do skip; return .alias (← anchorName)
  else if x = '&' then fetchAtom do skip; return .anchor (← anchorName)
  else if x = '!' then fetchAtom do
    let (handle, suffix) ← tagName
    return .tag handle suffix
  else if x = '|' && !flow then fetchBlock true
  else if x = '>' && !flow then fetchBlock false
  else if x = '\'' || x = '"' then fetchAtom do skip; return .scalar false (← quotedScalar x)
  else if startsPlain flow x c then fetchPlain
  else failure
  if !(x = '-' && c.gapAt 1) then scan skipLineComment

/-- Looks at one more token, with those that it implies. -/
def fetch : Tokens Unit := do
  scan (need 1)
  let s ← get
  if !s.started then
    set { s with started := true }
    push .streamStart
  else
    skipToToken (s.cursor.bound + 1)
    dedent (← get).cursor.column
    scan (need 4)
    let c := (← get).cursor
    match c.rest with
    | [] => fetchEnd
    | x :: _ =>
      if c.column = 0 && x = '%' then fetchDirective
      else if c.seesMark ['-', '-', '-'] then fetchMarker .documentStart
      else if c.seesMark ['.', '.', '.'] then fetchMarker .documentEnd
      else fetchToken x

/-- How many tokens are looked at, the next one included. -/
def inAdvance : Nat := 3

/-- Whether the next token can be taken: enough tokens were looked at, and it is clear whether it
starts a key. -/
def Stream.ready (s : Stream) : Option Bool :=
  if s.queue.length < inAdvance then some false
  else
    match s.candidates.reduceOption.find? (·.token = s.taken) with
    | some k => (k.holds s.cursor).map (!·)
    | none => some true

/-- Looks at tokens until the next one can be taken. -/
def fill : (fuel : Nat) → Tokens Unit
  | 0 => failure
  | fuel + 1 => do
    if !(← (← get).ready) then
      fetch
      fill fuel

/-- The next token. -/
def peek : Tokens Token := do
  fill ((← get).cursor.bound + 8)
  match (← get).queue with
  | t :: _ => return t
  | [] => failure

/-- Passes over the next token. -/
def take : Tokens Unit := modify fun s => { s with queue := s.queue.drop 1, taken := s.taken + 1 }

end ActionLog.Yaml
