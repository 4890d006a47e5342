import ActionLog.Command.Run

/-!
# The program

The command line on the files of this machine.  A failure is told on standard error.
-/

namespace ActionLog.Program

/-- A text as a string; bytes that are no UTF-8 are replaced. -/
def display (s : Text) : String :=
  String.ofList ((Text.pieces s).map fun p => Char.ofNat p.code)

/-- The contents of a file as a text. -/
def ofBytes (b : ByteArray) : Text := b.data.toList

/-- A text as the contents of a file. -/
def toBytes (s : Text) : ByteArray := ⟨s.toArray⟩

/-- A failed operation, and what is wrong with its path. -/
def explain (action : String) (name : Text) (e : IO.Error) : Command.FileError :=
  match e with
  | .noFileOrDirectory .. => ⟨utf8 action, name, .missing⟩
  | .inappropriateType none _ _ => ⟨utf8 "read", name, .isDirectory⟩
  | .inappropriateType _ code _ =>
    ⟨utf8 action, name, if code = 21 then .isDirectory else .notDirectory⟩
  | .permissionDenied .. => ⟨utf8 action, name, .other (utf8 "permission denied")⟩
  | e => ⟨utf8 action, name, .other (utf8 (toString e))⟩

/-- The files of this machine. -/
def machine : Command.Host IO where
  input := return ofBytes (← (← IO.getStdin).readBinToEnd)
  read name := do
    match ← (IO.FS.readBinFile (display name)).toBaseIO with
    | .ok b => return .ok (ofBytes b)
    | .error e => return .error (explain "open" name e)
  write name contents := do
    match ← (IO.FS.writeBinFile (display name) (toBytes contents)).toBaseIO with
    | .ok _ => return .ok ()
    | .error e => return .error (explain "open" name e)
  isFile name := return (← (IO.FS.readBinFile (display name)).toBaseIO).toBool

/-- The variables that settings may come from. -/
def environment : IO Command.Environment := do
  let mut env : Command.Environment := []
  for name in Command.settingNames do
    let variableName := Command.variableOf name
    if let some value ← IO.getEnv (display variableName) then
      env := env ++ [(variableName, utf8 value)]
  return env

/-- The directory of the user's configuration. -/
def configHome : IO (Option Text) := do
  match ← IO.getEnv "XDG_CONFIG_HOME" with
  | some dir => if dir != "" then return some (utf8 dir) else home
  | none => home
where
  home : IO (Option Text) := do
    return (← IO.getEnv "HOME").bind fun dir =>
      if dir = "" then none else some (utf8 (dir ++ "/.config"))

/-- Whether standard output shows colours. -/
def showsColours : IO Bool := do
  let plain := (← IO.getEnv "NO_COLOR").any (· != "") || (← IO.getEnv "TERM") == some "dumb"
  return !plain && (← (← IO.getStdout).isTty)

end ActionLog.Program

open ActionLog ActionLog.Program in
/-- Runs the command line and exits with its status. -/
def main (args : List String) : IO UInt32 := do
  let request : Command.Request :=
    ⟨args.map utf8, ← environment, ← configHome, ← showsColours⟩
  let (output, error?) ← Command.run machine request
  let stdout ← IO.getStdout
  let stderr ← IO.getStderr
  stderr.write (toBytes output.err)
  stdout.write (toBytes output.out)
  stdout.flush
  match error? with
  | none => return 0
  | some e =>
    stderr.write (toBytes (utf8 "cleansl: " ++ e.message ++ [Byte.newline]))
    return 1
