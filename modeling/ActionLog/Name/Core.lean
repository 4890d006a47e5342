import ActionLog.Text.Decimal

/-!
# Cores and versions of names

A generated name is a core followed by a version number.  The core keeps what an identifier may
hold, without digits at either end, so that the digits at the end of a generated name always are
its version.

* `core` — the core of any text; `placeholder` where nothing is left;
* `version` — the first version of a core is the core itself, the next ones are numbered from
  two on;
* `IsIdentifier` — the texts that may be used as names.
-/

namespace ActionLog.Name

/-- The core of texts that hold no letter of an identifier. -/
def placeholder : Text := utf8 "xxx"

/-- `names.Core`: the identifier bytes of a text, without digits at either end. -/
def core (s : Text) : Text :=
  match Text.trimEndBy Byte.isDigit ((s.filter Byte.isName).dropWhile Byte.isDigit) with
  | [] => placeholder
  | stem => stem

/-- The `k`-th name with a core: the core alone for the first, then the core with its number. -/
def version (stem : Text) (k : Nat) : Text :=
  if k ≤ 1 then stem else stem ++ Text.decimal k

/-- Identifiers: at least one byte, all of them identifier bytes, the first one no digit. -/
def IsIdentifier (s : Text) : Prop :=
  s.all Byte.isName ∧ s.head?.any fun b => !Byte.isDigit b

instance (s : Text) : Decidable (IsIdentifier s) := by
  unfold IsIdentifier; infer_instance

end ActionLog.Name
