import ActionLog.Command.Files
import ActionLog.Command.Journal
import ActionLog.Command.Listing
import ActionLog.Command.Settings
import ActionLog.LineDiff.Render
import ActionLog.Log.Junk
import ActionLog.Tables.Builtin
import ActionLog.Tables.Reader

/-!
# Running a command line

* `CommandError` — why a command failed, and its wording;
* `Request` — the words of a command line and what surrounds it;
* `Output`, `Session` — what a command writes, on any host, until it fails;
* `clean`, `junk`, `passes`, `version` — the verbs;
* `run` — a command line from its words to its output.

What was written before a failure stays written.
-/

namespace ActionLog.Command

/-- Why a command failed. -/
inductive CommandError where
  | flag (cause : FlagError)
  | usage (complaint : Text)
  | dotEnv
  | readConfig
  | decodeConfig
  | file (cause : FileError)
  | tablesFile (name : Text) (cause : FileError)
  | tables (name : Text) (cause : TablesError)
  | incomplete (failed blocks : Nat)
  | aborted (cause : Abort)

/-- The complaint about a command. -/
def CommandError.message : CommandError → Text
  | .flag cause => cause.message
  | .usage complaint => utf8 "usage: " ++ complaint
  | .dotEnv => utf8 "loading .env"
  | .readConfig => utf8 "reading config"
  | .decodeConfig => utf8 "decoding config"
  | .file cause => cause.message
  | .tablesFile name cause => name ++ utf8 ": " ++ cause.message
  | .tables name cause => name ++ utf8 ": " ++ cause.message
  | .incomplete failed blocks =>
    Text.decimal failed ++ utf8 " of " ++ Text.decimal blocks ++
      utf8 " blocks could not be cleaned"
  | .aborted cause => cause.message

/-- A command line and what surrounds it: the variables that are set, the directory of the user's
configuration if there is one, and whether standard output shows colours. -/
structure Request where
  words : List Text
  environment : Environment
  configHome : Option Text
  coloured : Bool

/-- What a command writes. -/
structure Output where
  out : Text
  err : Text

/-- A command at work on a host. -/
abbrev Session (m : Type → Type) := ExceptT CommandError (StateT Output m)

section

variable {m : Type → Type} [Monad m]

/-- Writes to standard output. -/
def print (s : Text) : Session m Unit := modify fun o => { o with out := o.out ++ s }

/-- Writes to standard error. -/
def note (s : Text) : Session m Unit := modify fun o => { o with err := o.err ++ s }

/-- An operation of the host. -/
def onHost {α : Type} (action : m α) : Session m α := ExceptT.lift (StateT.lift action)

/-- An operation on a file, of which a failure fails the command. -/
def onFile {α : Type} (fail : FileError → CommandError) (action : m (Except FileError α)) :
    Session m α := do
  match ← onHost action with
  | .ok a => return a
  | .error e => throw (fail e)

/-- The environment with the variables that the local environment file sets. -/
def fullEnvironment (host : Host m) (r : Request) : Session m Environment := do
  match ← onHost (host.read (utf8 ".env")) with
  | .ok contents =>
    match Environment.ofFile? contents with
    | some vars => return r.environment.extend vars
    | none => throw .dotEnv
  | .error e => if e.cause = .missing then return r.environment else throw .dotEnv

/-- The first of some paths that is a file. -/
def firstFile (host : Host m) : List Text → m (Option Text)
  | [] => return none
  | path :: paths => do if ← host.isFile path then return some path else firstFile host paths

/-- Where a configuration file is looked for: here, and in the user's directory. -/
def configPaths (r : Request) : List Text :=
  let inside (dir : Text) : List Text :=
    fileKinds.map fun (ending, _) => dir ++ utf8 "cleansl." ++ ending
  inside [] ++ (r.configHome.map fun home => inside (home ++ utf8 "/cleansl/")).getD []

/-- The values in the configuration file, which a flag may name. -/
def configValues (host : Host m) (r : Request) (fs : Flags) :
    Session m (List (Text × Value)) := do
  let named := fs.text "config"
  let path? ←
    if named == [] then onHost (firstFile host (configPaths r))
    else pure (some named)
  match path? with
  | none => return []
  | some path =>
    let contents ← onFile (fun _ => .readConfig) (host.read path)
    match (List.lookup (endingOf path) fileKinds).bind fun kind => readFile? kind contents with
    | some values => return values
    | none => throw .readConfig

/-- The settings of a command. -/
def settings (host : Host m) (r : Request) (fs : Flags) : Session m Settings := do
  let env ← fullEnvironment host r
  let file ← configValues host r fs
  match Settings.ofSources? ⟨fs, env, file⟩ with
  | some s => return s
  | none => throw .decodeConfig

/-- The tables that settings name. -/
def loadTables (host : Host m) (s : Settings) : Session m Tables := do
  if s.tables == [] then return Tables.builtin
  else
    let fail (e : FileError) : CommandError :=
      if e.action == utf8 "open" then .file e else .tablesFile s.tables e
    let contents ← onFile fail (host.read s.tables)
    match Tables.read contents with
    | .ok t => return t
    | .error e => throw (.tables s.tables e)

/-- The log to work on, and its name. -/
def readLog (host : Host m) (args : List Text) : Session m (Text × Text) := do
  let name := args.head?.getD (utf8 "-")
  if name == utf8 "-" then return (utf8 "stdin", ← onHost host.input)
  else return (name, ← onFile .file (host.read name))

/-- Writes a result where the flags say. -/
def writeResult (host : Host m) (fs : Flags) (result : Text) : Session m Unit := do
  let name := fs.text "output"
  if name == [] then print result else onFile .file (host.write name result)

/-- The resolver that settings ask for. -/
def resolverOf (s : Settings) (t : Tables) : Session m (Cached BookResolver Recall) :=
  match Cached.ofSize (.ofBook t.codebook) s.cacheSize with
  | .ok resolver => return resolver
  | .error _ =>
    throw (.usage (utf8 "cache size must be positive, have " ++ Text.signed s.cacheSize))

/-- What cleaning gives out: the cleaned log, or how it differs from the log. -/
def cleanResult (showDiff coloured : Bool) (name log cleaned : Text) : Text :=
  if showDiff then
    let diff := (LineDiff.render? LineDiff.lineScript name (Text.trim log ++ [Byte.newline])
      (name ++ utf8 ".clean") (cleaned ++ [Byte.newline])).getD []
    if coloured then (LineDiff.colour true diff).getD [] else diff
  else if cleaned == [] then [] else cleaned ++ [Byte.newline]

/-- Cleans a log. -/
def clean (host : Host m) (r : Request) (fs : Flags) (args : List Text) : Session m Unit := do
  let s ← settings host r fs
  match levelOf? s.logLevel with
  | none => throw (.usage (utf8 "unknown log level " ++ Text.quote s.logLevel))
  | some level =>
    let t ← loadTables host s
    let (name, contents) ← readLog host args
    if showsDebug level then note (readRecord name contents)
    let log := if fs.isOn "last" then Log.lastEntry contents else contents
    let resolver ← resolverOf s t
    match ((Pipeline.make s.options t resolver).process log).1 with
    | .error cause => throw (.aborted cause)
    | .ok report =>
      note (report.events.flatMap (eventText level))
      let coloured := r.coloured && fs.text "output" == []
      writeResult host fs (cleanResult (fs.isOn "diff") coloured name log report.text)
      if report.faults.size != 0 then
        throw (.incomplete report.faults.size (Log.entries log).length)

/-- Removes the entries of a log that record nothing. -/
def junk (host : Host m) (r : Request) (fs : Flags) (args : List Text) : Session m Unit := do
  let s ← settings host r fs
  let t ← loadTables host s
  let (_, contents) ← readLog host args
  let tidied := Log.removeJunk t.junk contents
  let rest := Text.trim tidied.log
  writeResult host fs (if rest == [] then [] else rest ++ [Byte.newline])
  note (tidied.message ++ [Byte.newline])

/-- Lists the stages. -/
def passes (host : Host m) (r : Request) (fs : Flags) : Session m Unit := do
  let s ← settings host r fs
  let t ← loadTables host s
  let _ ← resolverOf s t
  print (stageTable s.options).render

/-- Tells the version of the program and of its tables. -/
def version (host : Host m) (r : Request) (fs : Flags) : Session m Unit := do
  let s ← settings host r fs
  let t ← loadTables host s
  print (utf8 "cleansl (devel) (tables " ++ t.version ++ utf8 ")\n")

/-- A command line from its words to its effects.  A command that is asked for help does nothing
else. -/
def session (host : Host m) (r : Request) : Session m Unit := do
  let (verb, words) := verbOf r.words
  match parse (verb.flags ++ [helpFlag]) words with
  | .error e => throw (.flag e)
  | .ok (fs, args) =>
    if fs.isOn "help" then return
    else if verb.maxArguments < args.length then throw (.usage verb.usage)
    else
      match verb with
      | .clean => clean host r fs args
      | .junk => junk host r fs args
      | .passes => passes host r fs
      | .version => version host r fs

/-- What a command line writes, and why it failed if it did. -/
def run (host : Host m) (r : Request) : m (Output × Option CommandError) := do
  let (result, output) ← (session host r).run.run ⟨[], []⟩
  match result with
  | .ok _ => return (output, none)
  | .error e => return (output, some e)

end

end ActionLog.Command
