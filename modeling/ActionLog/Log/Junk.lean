import ActionLog.Log.Entry
import ActionLog.Text.Decimal

/-!
# Junk entries

Some actions are recorded although nobody performed them.  They are known by signatures, texts
that their entries contain.

* `isJunk` — whether an entry contains a signature;
* `removeJunk` — the log without its junk entries, and what was done.
-/

namespace ActionLog.Log

/-- `IsJunk`: whether an entry contains one of the signatures; the empty signature marks nothing. -/
def isJunk (signatures : List Text) (entry : Text) : Bool :=
  signatures.any fun s => s != [] && Text.includes s entry

/-- `JunkResult`: a log after the removal of junk. -/
structure Tidied where
  log : Text
  removed : Nat
  signatures : List Text
  deriving DecidableEq, Repr

/-- Whether any entry was removed. -/
def Tidied.changed (t : Tidied) : Bool := 0 < t.removed

/-- The account of the removal given to the user. -/
def Tidied.message (t : Tidied) : Text :=
  if t.removed = 0 then utf8 "All good, no junk found."
  else
    utf8 "Removed " ++ Text.decimal t.removed ++
    (if t.removed = 1 then utf8 " junk block.\n" else utf8 " junk blocks.\n") ++
    utf8 "\"Junk block\" is considered a log block that contains any of these:\n\n" ++
    Text.unlines t.signatures

/-- `RemoveJunk`: the log without its junk entries; a log without junk is kept byte for byte. -/
def removeJunk (signatures : List Text) (log : Text) : Tidied :=
  let es := entries log
  let kept := es.filter fun e => !isJunk signatures e
  let removed := es.length - kept.length
  ⟨if removed = 0 then log else write (isSeparated log) kept, removed, signatures⟩

end ActionLog.Log
