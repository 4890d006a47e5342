import ActionLog.Options
import ActionLog.Pass.CodeCall
import ActionLog.Pass.Conflict
import ActionLog.Pass.Describe
import ActionLog.Pass.Hoist
import ActionLog.Pass.Inline
import ActionLog.Pass.Shorten
import ActionLog.Pass.Wrap

/-!
# The stages of cleaning

Each stage runs one pass on an entry.

* `Stage` — the eight stages; `Stage.all` lists them as they run;
* `Stage.isEnabled` — whether options ask for a stage;
* `Work` — what the stages share while an entry is cleaned;
* `Stage.run` — one stage on one text.
-/

namespace ActionLog

/-- The stages that an entry goes through. -/
inductive Stage where
  | resolveConflicts
  | hoist
  | consolidate
  | descriptiveNames
  | convertCodes
  | shorten
  | liftParameters
  | wrap
  deriving DecidableEq, Repr

/-- Names handed out, the resolver of codes, and the parameters lifted from the entry so far. -/
structure Work (ρ : Type) where
  names : Registry
  resolver : ρ
  parameters : List Pass.Parameter

namespace Stage

/-- `passes`: the stages in the order they run. -/
def all : List Stage :=
  [resolveConflicts, hoist, consolidate, descriptiveNames, convertCodes, shorten, liftParameters,
   wrap]

/-- The name of the pass that a stage runs. -/
def label : Stage → Text
  | resolveConflicts => utf8 "resolve-conflicts"
  | hoist => utf8 "hoist"
  | consolidate => utf8 "consolidate"
  | descriptiveNames => utf8 "descriptive-names"
  | convertCodes => utf8 "charid-to-stringid"
  | shorten => utf8 "shorten"
  | liftParameters => utf8 "extract-params"
  | wrap => utf8 "wrap"

/-- What a stage does, in a few words. -/
def summary : Stage → Text
  | resolveConflicts => utf8 "rename variables redeclared with other values"
  | hoist => utf8 "move declarations to the top"
  | consolidate => utf8 "inline variables into the calls using them"
  | descriptiveNames => utf8 "name variables after the objects they hold"
  | convertCodes => utf8 "convert charIDToTypeID to stringIDToTypeID"
  | shorten => utf8 "alias long method names"
  | liftParameters => utf8 "lift literal setter values into parameters"
  | wrap => utf8 "wrap the entry into a named function"

/-- Whether options ask for a stage.  Parameters are lifted only into a function. -/
def isEnabled (o : Options) : Stage → Bool
  | resolveConflicts => o.resolveConflicts
  | hoist => o.hoist
  | consolidate => o.consolidate
  | descriptiveNames => o.descriptiveNames
  | convertCodes => o.convertCodes
  | shorten => o.shorten
  | liftParameters => o.liftParameters && o.wrap
  | wrap => o.wrap

/-- The stages that options ask for. -/
def enabled (o : Options) : List Stage := all.filter (isEnabled o)

section Run

variable {ρ : Type} [Resolver ρ]

/-- One stage on one text. -/
def run (o : Options) (t : Tables) (w : Work ρ) (s : Text) :
    Stage → Outcome (Text × Work ρ) (Text × Work ρ)
  | resolveConflicts => (Pass.resolveConflicts o.lookahead w.names s).onto fun (s, names) =>
    (s, { w with names := names })
  | hoist => .ok (Pass.hoist s, w)
  | consolidate => (Pass.consolidate s).onto fun s => (s, w)
  | descriptiveNames => (Pass.describe t.constructors w.names s).onto fun (s, names) =>
    (s, { w with names := names })
  | convertCodes => (Pass.convertCodes t.isAmbiguous w.resolver s).onto fun (s, resolver) =>
    (s, { w with resolver := resolver })
  | shorten => (Pass.shorten t.aliases s).onto fun s => (s, w)
  | liftParameters =>
    (Pass.liftParameters t.setters t.isIgnoredKey w.names s).onto fun (s, params, names) =>
      (s, { w with names := names, parameters := params })
  | wrap =>
    let (s, names) := Pass.wrap w.parameters w.names s
    .ok (s, { w with names := names })

end Run

end Stage

end ActionLog
