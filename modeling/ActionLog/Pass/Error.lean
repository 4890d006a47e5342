import ActionLog.Declaration
import ActionLog.Draft

/-!
# Why a pass stops

* `Abort` — a pass could not go on at all;
* `PassError` — a pass met a declaration it cannot split, or could not go on;
* `Outcome` — what a pass returns.  A pass that meets a malformed declaration gives back a text and
  names beside the error, as `ResolveConflicts`, `Consolidate` and `RenameByConstructor` do.

Only the first kind of error leaves the other entries of a log untouched; an abort ends the run.
-/

namespace ActionLog

/-- Why a pass could not go on: edits that cannot be made, or a search pattern that is not valid
text, given as it is written. -/
inductive Abort where
  | edit (cause : EditError)
  | pattern (source : Text)
  deriving DecidableEq, Repr

/-- Why a pass failed, and what it gave back with the error. -/
inductive PassError (α : Type) where
  | malformed (line : BadLine) (back : α)
  | aborted (cause : Abort)
  deriving DecidableEq, Repr

/-- What a step of a pass returns: its result, or an error with what the pass gives back. -/
abbrev Outcome (α : Type) := Except (PassError α)

namespace Outcome

variable {α β : Type}

/-- What a pass returns, seen through a function, whether the pass failed or not. -/
def onto (f : α → β) : Outcome α α → Outcome β β
  | .ok a => .ok (f a)
  | .error (.malformed bad back) => .error (.malformed bad (f back))
  | .error (.aborted cause) => .error (.aborted cause)

end Outcome

namespace Abort

/-- A name as a search pattern shows it: bytes with a meaning of their own after a backslash. -/
def escapeName (name : Text) : Text :=
  name.flatMap fun b => if (utf8 "\\.+*?()|[]\x7b\x7d^$").contains b then [0x5C, b] else [b]

/-- The complaint about an abort. -/
def message : Abort → Text
  | .edit e => e.message
  | .pattern source =>
    utf8 "regexp: Compile(" ++ Text.quote source ++
    utf8 "): error parsing regexp: invalid UTF-8: `" ++ Text.fromStray source ++ utf8 "`"

end Abort

/-- A text with all edits made together, as a step of a pass. -/
def reviseOrAbort {α : Type} (s : Text) (edits : List Edit) : Outcome α Text :=
  (revise s edits).mapError fun e => .aborted (.edit e)

/-- The declarations of a text, as a step of a pass that gives `back` if there are none. -/
def extractOrFail {α : Type} (back : α) (s : Text) : Outcome α (List Declaration) :=
  (Declaration.extract s).mapError fun bad => .malformed bad back

end ActionLog
