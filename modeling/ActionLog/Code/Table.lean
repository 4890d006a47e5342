import ActionLog.Text.Quoted

/-!
# Four-character codes and their identifiers

Recorded code names actions by four-character codes.  A codebook knows the descriptive identifier
of a code.

* `CodeTable.lookup` — the identifier of a code, or the complaint that it is unknown;
* `Codebook` — a lookup that may fail, and the codes that are ambiguous;
* `Codebook.resolve` — the identifier of a code, if it has exactly one.
-/

namespace ActionLog

/-- Codes with their identifiers. -/
abbrev CodeTable := List (Text × Text)

/-- `ErrUnknown`: a code that a table does not hold. -/
structure UnknownCode where
  code : Text
  deriving DecidableEq, Repr

/-- The complaint about an unknown code. -/
def UnknownCode.message (e : UnknownCode) : Text :=
  utf8 "unknown charID: " ++ Text.quote e.code

/-- `charid.Table`: the identifier of a code. -/
def CodeTable.lookup (t : CodeTable) (code : Text) : Except UnknownCode Text :=
  match List.lookup code t with
  | some id => .ok id
  | none => .error ⟨code⟩

/-- Where codes are looked up (`charid.Lookup`), and which of them have several identifiers. -/
structure Codebook where
  lookup : Text → Option Text
  ambiguous : List Text

namespace Codebook

/-- A codebook that answers from a table. -/
def ofTable (t : CodeTable) (ambiguous : List Text) : Codebook :=
  ⟨fun code => (t.lookup code).toOption, ambiguous⟩

/-- Whether a code is ambiguous. -/
def isAmbiguous (c : Codebook) (code : Text) : Bool := c.ambiguous.contains code

/-- The identifier of a code: none if it is ambiguous, unknown or has an empty identifier. -/
def resolve (c : Codebook) (code : Text) : Option Text :=
  if c.isAmbiguous code then none else (c.lookup code).filter (· != [])

end Codebook

end ActionLog
