import ActionLog.Command.Environment
import ActionLog.Command.Flags
import ActionLog.Json
import ActionLog.Options
import ActionLog.Text.LowerCase
import ActionLog.Toml
import ActionLog.Yaml.Reader
import ActionLog.Yaml.Value

/-!
# Settings

Settings come from flags, from environment variables, from a configuration file, and from defaults;
the first of these that has a setting decides it.

* `Settings` — all settings of a run;
* `Sources` — where settings come from, and `Sources.find`, the deciding value;
* `Settings.ofSources?` — the settings; none if a value does not fit;
* `readFile?` — the values in a configuration file, whose keys are case-insensitive.
-/

namespace ActionLog.Command

/-- All settings of a run. -/
structure Settings where
  options : Options
  tables : Text
  logLevel : Text
  cacheSize : Int
  deriving DecidableEq, Repr

/-- Where settings come from. -/
structure Sources where
  flags : Flags
  environment : Environment
  file : List (Text × Value)

/-- The flag of a setting. -/
def flagOf (key : String) : String := key.map fun c => if c = '_' then '-' else c

/-- The variable of a setting. -/
def variableOf (key : String) : Text := utf8 ("CLEANSL_" ++ key.map Char.toUpper)

/-- The settings by name. -/
def settingNames : List String :=
  ["resolve_conflicts", "hoist", "consolidate", "descriptive_names", "charid_to_stringid",
   "shorten", "extract_params", "wrap", "lookahead", "tables", "log_level", "cache_size"]

/-- The value of a flag. -/
def FlagValue.toValue : FlagValue → Value
  | .switch on => .bool on
  | .integer n => .int n
  | .text s => .text s

/-- The value that decides a setting. -/
def Sources.find (s : Sources) (key : String) : Value :=
  match s.flags.get? (flagOf key) with
  | some v => v.toValue
  | none =>
    match s.environment.get? (variableOf key) with
    | some t => .text t
    | none => (List.lookup (utf8 key) s.file.reverse).getD .nothing

/-- The settings that sources decide. -/
def Settings.ofSources? (s : Sources) : Option Settings := do
  let switch (key : String) (default : Bool) : Option Bool := (s.find key).toBool? default
  let o := Options.all
  return {
    options := {
      resolveConflicts := ← switch "resolve_conflicts" o.resolveConflicts
      hoist := ← switch "hoist" o.hoist
      consolidate := ← switch "consolidate" o.consolidate
      descriptiveNames := ← switch "descriptive_names" o.descriptiveNames
      convertCodes := ← switch "charid_to_stringid" o.convertCodes
      shorten := ← switch "shorten" o.shorten
      liftParameters := ← switch "extract_params" o.liftParameters
      wrap := ← switch "wrap" o.wrap
      lookahead := ← (s.find "lookahead").toInt? o.lookahead }
    tables := ← (s.find "tables").toText? []
    logLevel := ← (s.find "log_level").toText? (utf8 "warn")
    cacheSize := ← (s.find "cache_size").toInt? 256 }

/-- The values in a YAML file: a mapping that gives no key twice.  What has no key does not
count. -/
def readYaml? (s : Text) : Option (List (Text × Value)) := do
  let n ← Yaml.document? s
  if n.isNull then return []
  else
    let entries ← (← n.fields?).mapM fun (key, value) =>
      match key.target with
      | .scalar plain tag name => do
        if (← Yaml.scalarValue? plain tag name) = .nothing then return none
        else return some (name, ← value.value?)
      | _ => none
    return entries.filterMap id

/-- The kinds of configuration files. -/
inductive FileKind where
  | json
  | toml
  | yaml
  | environment
  | unsupported
  deriving DecidableEq, Repr

/-- The kinds of configuration files by the endings of their names, in the order in which files are
looked for. -/
def fileKinds : List (Text × FileKind) :=
  [("json", .json), ("toml", .toml), ("yaml", .yaml), ("yml", .yaml),
   ("properties", .unsupported), ("props", .unsupported), ("prop", .unsupported),
   ("hcl", .unsupported), ("tfvars", .unsupported), ("dotenv", .environment), ("env", .environment),
   ("ini", FileKind.unsupported)].map fun (ending, kind) => (utf8 ending, kind)

/-- The ending of a file's name. -/
def endingOf (path : Text) : Text :=
  let name := (path.reverse.takeWhile (· != 0x2F)).reverse
  ((Text.cutLast Byte.dot name).map (·.2)).getD []

/-- The values with their keys in lower case.  A key that is written otherwise counts more than one
that is not. -/
def foldKeys (values : List (Text × Value)) : List (Text × Value) :=
  let (lower, others) := values.partition fun (key, _) => Text.toLower key == key
  lower ++ others.map fun (key, value) => (Text.toLower key, value)

/-- The values in a configuration file. -/
def readFile? (kind : FileKind) (s : Text) : Option (List (Text × Value)) :=
  let values :=
    match kind with
    | .json => Json.members? s
    | .toml => Toml.members? s
    | .yaml => readYaml? s
    | .environment =>
      (Environment.ofFile? s).map (List.map fun (name, value) => (name, Value.text value))
    | .unsupported => none
  values.map foldKeys

end ActionLog.Command
