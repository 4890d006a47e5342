import ActionLog.Yaml.Scalar

/-!
# Tokens of a document

* `Token` — the marks, names and scalars that a document is made of.  The starts and ends of block
  collections and the marks of keys are tokens too, although indentation and colons imply them;
* `anchorName`, `tagName`, `directive` — the names that tokens carry.
-/

namespace ActionLog.Yaml

/-- A token. -/
inductive Token where
  | streamStart
  | streamEnd
  | version (major minor : Nat)
  | handle (handle meaning : List Char)
  | documentStart
  | documentEnd
  | blockSequence
  | blockMapping
  | blockEnd
  | openBracket
  | closeBracket
  | openBrace
  | closeBrace
  | comma
  | dash
  | key
  | value
  | alias (name : List Char)
  | anchor (name : List Char)
  | tag (handle suffix : List Char)
  | scalar (plain : Bool) (text : List Char)
  deriving DecidableEq, Repr

/-- The characters of the names of anchors, handles and directives. -/
def isWordChar (x : Char) : Bool := x.isAlphanum || x = '_' || x = '-'

/-- The name of an anchor or alias after its mark. -/
def anchorName : Scan (List Char) := do
  let name ← takeAll isWordChar
  let c ← get
  if !name.isEmpty && (c.gapAt 0 || c.rest.head?.any fun x =>
      ['?', ':', ',', ']', '\x7d', '%', '@', '\x60'].contains x) then return name
  else failure

/-- The characters of the suffixes of tags. -/
def isUriChar (x : Char) : Bool :=
  isWordChar x || [';', '/', '?', ':', '@', '&', '=', '+', '$', ',', '.', '!', '~', '*', '\'', '(',
    ')', '[', ']', '%'].contains x

/-- The bytes that percent signs with two hexadecimal digits name; other characters are bytes of
their own. -/
def uriBytes? : List Char → Option Text
  | [] => some []
  | ['%'] | ['%', _] => none
  | '%' :: a :: b :: r => do
    let n := 16 * (← hexValue? a) + (← hexValue? b)
    return n.toUInt8 :: (← uriBytes? r)
  | x :: r => (uriBytes? r).map (x.toNat.toUInt8 :: ·)

/-- The suffix of a tag, after characters that were read before. -/
def uri (before : List Char) : Scan (List Char) := do
  let suffix ← takeAll isUriChar
  let bytes ← uriBytes? suffix
  let codes ← (Text.pieces bytes).mapM fun
    | .char code => some (Char.ofNat code)
    | .stray _ => none
  return before.drop 1 ++ codes

/-- The handle of a tag: an exclamation mark, or two with a name between them. -/
def tagHandle : Scan (List Char) := do
  need 1
  if !(← get).sees '!' then failure
  skip
  let name ← takeAll isWordChar
  if (← get).sees '!' then
    skip
    return '!' :: name ++ ['!']
  else return '!' :: name

/-- The handle and the suffix of a tag. -/
def tagName : Scan (List Char × List Char) := do
  need 2
  let (handle, suffix) ←
    if (← get).rest.take 2 == ['!', '<'] then do
      skip; skip
      let suffix ← uri []
      if suffix.isEmpty || !(← get).sees '>' then failure
      skip
      pure ([], suffix)
    else do
      let handle ← tagHandle
      if 1 < handle.length && handle.getLast? == some '!' then
        let suffix ← uri []
        if suffix.isEmpty then failure
        pure (handle, suffix)
      else
        let suffix ← uri handle
        pure (if suffix.isEmpty then ([], handle) else (['!'], suffix))
  need 1
  if (← get).gapAt 0 then return (handle, suffix) else failure

/-- A number of a version. -/
def versionNumber : Scan Nat := do
  let digits ← takeAll Char.isDigit
  if digits.isEmpty || 2 < digits.length then failure
  return digits.foldl (fun n x => 10 * n + (x.toNat - 0x30)) 0

/-- A directive after its percent sign, to the end of its line. -/
def directive : Scan Token := do
  let name ← takeAll isWordChar
  if name.isEmpty || !(← get).gapAt 0 then failure
  let token ←
    if name == ['Y', 'A', 'M', 'L'] then do
      let _ ← takeAll isBlank
      let major ← versionNumber
      if !(← get).sees '.' then failure
      skip
      pure (Token.version major (← versionNumber))
    else if name == ['T', 'A', 'G'] then do
      let _ ← takeAll isBlank
      let handle ← tagHandle
      if 1 < handle.length && handle.getLast? != some '!' then failure
      if !(← get).rest.head?.any isBlank then failure
      let _ ← takeAll isBlank
      let meaning ← uri []
      if meaning.isEmpty || !(← get).gapAt 0 then failure
      pure (Token.handle handle meaning)
    else failure
  endLine
  return token

end ActionLog.Yaml
