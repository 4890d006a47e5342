import ActionLog.Code.Resolver
import ActionLog.Pass.Error
import ActionLog.Text.Scan

/-!
# Calls on codes

Calls such as `charIDToTypeID( "Mk  " )` name a four-character code; where the code has one
identifier they become calls on it.

* `CodeCall` — such a call with its spacing and quotes;
* `codeCall` — the pattern that finds one;
* `CodeCall.onIdentifier` — the call on the identifier of its code;
* `convertCodes` — a text with its calls converted, whatever answers the codes (`ConvertCharIDs`).
-/

namespace ActionLog.Pass

/-- A call on a code: the opening parenthesis with the blanks around it, the code between two
quotes, and the closing parenthesis with the blanks before it. -/
structure CodeCall where
  opening : Text
  openQuote : UInt8
  code : Text
  closeQuote : UInt8
  closing : Text
  deriving DecidableEq, Repr

/-- A single or double quote. -/
def isQuote (b : UInt8) : Bool := b == Byte.doubleQuote || b == Byte.singleQuote

/-- The first `n` characters of a text and the rest, if none of them is a quote or a newline.
A stray byte counts as a character. -/
def takeCode? : (n : Nat) → Text → Option (Text × Text)
  | 0, s => some ([], s)
  | _ + 1, [] => none
  | n + 1, b :: s =>
    if isQuote b || b == Byte.newline then none
    else
      let width := Text.Utf8.width (b :: s)
      (takeCode? n ((b :: s).drop width)).map fun (code, rest) =>
        ((b :: s).take width ++ code, rest)

/-- A parenthesis after a gap, with the gap, and the text that follows it. -/
def takeParen? (paren : UInt8) (s : Text) : Option (Text × Text) := do
  let rest ← Text.after? [paren] (s.dropWhile Byte.isGap)
  return (s.takeWhile Byte.isGap ++ [paren], rest)

/-- A quote and the text that follows it. -/
def takeQuote? : Text → Option (UInt8 × Text)
  | b :: s => if isQuote b then some (b, s) else none
  | [] => none

/-- A call on a code. -/
def codeCall : Text.Pattern CodeCall := fun before rest => do
  if before.any Byte.isWord then none
  else
    let s ← Text.after? (utf8 "charIDToTypeID") rest
    let (paren, s) ← takeParen? Byte.openParen s
    let gap := s.takeWhile Byte.isGap
    let (openQuote, s) ← takeQuote? (s.dropWhile Byte.isGap)
    let (code, s) ← takeCode? 4 s
    let (closeQuote, s) ← takeQuote? s
    let (closing, s) ← takeParen? Byte.closeParen s
    return (rest.length - s.length, ⟨paren ++ gap, openQuote, code, closeQuote, closing⟩)

/-- The call on an identifier instead of a code, with the same spacing and quotes. -/
def CodeCall.onIdentifier (c : CodeCall) (id : Text) : Text :=
  utf8 "stringIDToTypeID" ++ c.opening ++ [c.openQuote] ++ id ++ [c.closeQuote] ++ c.closing

section Conversion

variable {ρ : Type} [Resolver ρ]

/-- The edits that convert calls, and the resolver after them.  Calls with two different quotes
and calls on ambiguous codes are left alone without asking the resolver. -/
def convertEdits (ambiguous : Text → Bool) : List (Text.Hit CodeCall) → ρ → List Edit × ρ
  | [], r => ([], r)
  | hit :: hits, r =>
    let call := hit.value
    if call.openQuote != call.closeQuote || ambiguous call.code then convertEdits ambiguous hits r
    else
      let (id, r) := Resolver.resolve r call.code
      let (edits, r) := convertEdits ambiguous hits r
      ((id.map fun id => ⟨hit.start, hit.stop, call.onIdentifier id⟩).toList ++ edits, r)

/-- `ConvertCharIDs`: the text with calls on codes converted into calls on identifiers. -/
def convertCodes (ambiguous : Text → Bool) (r : ρ) (s : Text) : Outcome (Text × ρ) (Text × ρ) := do
  let (edits, r) := convertEdits ambiguous (Text.findAll .char codeCall s) r
  let s ← reviseOrAbort s edits
  return (s, r)

end Conversion

end ActionLog.Pass
