import ActionLog.Text.Basic

/-!
# Options

Which passes clean an entry, and how far conflict resolution looks for uses.
-/

namespace ActionLog

/-- One switch for each pass, and the window of conflict resolution. -/
structure Options where
  resolveConflicts : Bool
  hoist : Bool
  consolidate : Bool
  descriptiveNames : Bool
  convertCodes : Bool
  shorten : Bool
  liftParameters : Bool
  wrap : Bool
  lookahead : Int
  deriving DecidableEq, Repr

namespace Options

/-- `DefaultOptions`: all passes, with a window of five lines. -/
def all : Options := ⟨true, true, true, true, true, true, true, true, 5⟩

/-- No pass. -/
def none : Options := ⟨false, false, false, false, false, false, false, false, 0⟩

end Options

end ActionLog
