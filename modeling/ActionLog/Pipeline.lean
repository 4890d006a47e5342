import ActionLog.Fault
import ActionLog.Log.Entry
import ActionLog.Pass.Normalize
import ActionLog.Stage

/-!
# Cleaning a log

A pipeline sends every entry of a log through the stages that its options ask for.  An entry that
fails is given out as it stood before the failing stage, and the others are still cleaned.

* `Pipeline` — options and tables, and what is carried from one call to the next: names handed out
  and the resolver of codes, which may be any;
* `Cleaned` — an entry after its stages, with the stage that failed if one did;
* `Pipeline.runStages`, `Pipeline.cleanEntry` — one entry (`Pipeline.Block`);
* `Pipeline.cleanEntries`, `Pipeline.process` — a whole log (`Pipeline.Process`);
* `Event` — what happened on the way, for a debug log.

Names of variables and parameters start anew with every entry, names of functions with every log.
Results come with the pipeline after the call; after an abort it is as it was at that point.
-/

namespace ActionLog

/-- What happens while a log is cleaned. -/
inductive Event where
  | cleaning (block lines : Nat)
  | done (stage : Stage) (changed : Bool)
  | reported (message : Text)
  | cleaned (blocks failed : Nat)
  deriving DecidableEq, Repr

/-- An entry after its stages.  If one failed, the text is what it was given. -/
structure Cleaned where
  text : Text
  failure : Option (Stage × BadLine)
  events : List Event
  deriving DecidableEq, Repr

/-- A log after all its entries were cleaned. -/
structure Report where
  text : Text
  faults : FaultList
  reports : List Text
  events : List Event
  deriving DecidableEq, Repr

/-- `blockError`: the fault that a failing entry is reported as. -/
def Fault.ofFailure (block : Nat) (stage : Stage) (bad : BadLine) : Fault where
  position := ⟨block, bad.number⟩
  pass := stage.label
  message := BadLine.complaint ++ utf8 ": " ++ bad.text
  malformed := true

/-- Options and tables, and the names and the resolver that calls leave behind. -/
structure Pipeline (ρ : Type) where
  options : Options
  tables : Tables
  names : Registry
  resolver : ρ

namespace Pipeline

variable {ρ : Type} [Resolver ρ]

/-- `New`: a pipeline before its first call. -/
def make (options : Options) (tables : Tables) (resolver : ρ) : Pipeline ρ :=
  ⟨options, tables, Registry.ofReserved tables.reserved, resolver⟩

/-- Stages run one after another, up to the first that fails.  The text given out then is the one
that the failing stage was given, whatever it gave back; the work is the one it left. -/
def runStages (o : Options) (t : Tables) :
    List Stage → Work ρ → Text → Except Abort Cleaned × Work ρ
  | [], w, s => (.ok ⟨s, none, []⟩, w)
  | stage :: stages, w, s =>
    match stage.run o t w s with
    | .error (.malformed bad (_, w)) => (.ok ⟨s, some (stage, bad), []⟩, w)
    | .error (.aborted cause) => (.error cause, w)
    | .ok (out, w) =>
      let (result, w) := runStages o t stages w out
      (result.map fun c => { c with events := .done stage (out != s) :: c.events }, w)

/-- `Pipeline.Block`: one entry through all stages that the options ask for. -/
def cleanEntry (p : Pipeline ρ) (entry : Text) : Except Abort Cleaned × Pipeline ρ :=
  let names := (p.names.reset .vars).reset .parameters
  let (result, w) :=
    runStages p.options p.tables (Stage.enabled p.options) ⟨names, p.resolver, []⟩
      (Pass.normalize entry)
  (result, { p with names := w.names, resolver := w.resolver })

/-- Entries cleaned one after another, up to the first abort. -/
def cleanEntries : List Text → Pipeline ρ → Except Abort (List Cleaned) × Pipeline ρ
  | [], p => (.ok [], p)
  | entry :: es, p =>
    match p.cleanEntry entry with
    | (.error cause, p) => (.error cause, p)
    | (.ok c, p) =>
      let (rest, p) := cleanEntries es p
      (rest.map (c :: ·), p)

/-- The faults of the entries that failed; the first entry has the given number. -/
def faultsOf : (block : Nat) → List Cleaned → List Fault
  | _, [] => []
  | block, c :: cs =>
    (c.failure.map fun (stage, bad) => Fault.ofFailure block stage bad).toList ++
      faultsOf (block + 1) cs

/-- The events of cleaning entries; the first entry has the given number. -/
def eventsOf : (block : Nat) → List Text → List Cleaned → List Event
  | block, entry :: es, c :: cs =>
    .cleaning block (Text.lines entry).length :: c.events ++
      (faultsOf block [c]).map (fun f => .reported f.text) ++ eventsOf (block + 1) es cs
  | _, _, _ => []

/-- `Pipeline.Process`: all entries of a log cleaned and put together again. -/
def process (p : Pipeline ρ) (log : Text) : Except Abort Report × Pipeline ρ :=
  let es := Log.entries log
  let (result, p) := cleanEntries es { p with names := p.names.reset .functions }
  (result.map fun cs =>
    let faults := faultsOf 1 cs
    let list := faults.foldl FaultList.add .empty
    { text := Log.write (Log.isSeparated log) (cs.map (·.text))
      faults := list
      reports := faults.map Fault.text
      events := eventsOf 1 es cs ++ [.cleaned es.length list.size] }, p)

end Pipeline

end ActionLog
