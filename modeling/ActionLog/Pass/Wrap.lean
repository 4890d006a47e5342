import ActionLog.Name.Registry
import ActionLog.Pass.Parameter

/-!
# Entries as functions

`wrap` makes a text the body of a function, named after the action that the text performs, and
calls it with the values of its parameters.

* `actionName` — the first quoted string of the first `executeAction` call;
* `wrap` — call, head, indented body and closing brace.
-/

namespace ActionLog.Pass

/-- A call of `executeAction`, up to the end of its line. -/
def actionCall : Text.Pattern Text := fun before rest => do
  if before.any Byte.isWord then none
  else
    let s ← Text.after? (utf8 "executeAction") rest
    let args ← Text.after? [Byte.openParen] (s.dropWhile Byte.isGap)
    let n := rest.length - (args.dropWhile (· != Byte.newline)).length
    return (n, rest.take n)

/-- `functionName`: the name of the action that a text performs. -/
def actionName (s : Text) : Text :=
  match (Text.find? .char actionCall s).bind fun hit => Text.firstQuoted? hit.value with
  | none | some [] => Name.placeholder
  | some name => name

/-- A line of a body: indented by a tab unless it is empty. -/
def indent (line : Text) : Text := if line == [] then [] else Byte.tab :: line

/-- `Wrap`: the text as the body of a function, after a call of the function. -/
def wrap (params : List Parameter) (names : Registry) (s : Text) : Text × Registry :=
  let (name, names) := names.allocate .functions (actionName s)
  let list (ts : List Text) : Text := utf8 "(" ++ Text.join (utf8 ", ") ts ++ utf8 ")"
  (name ++ list (params.map (·.value)) ++ utf8 ";\n" ++
    utf8 "function " ++ name ++ list (params.map (·.name)) ++ utf8 " \x7b\n" ++
    Text.unlines ((Text.lines s).map indent) ++ utf8 "\n\x7d", names)

end ActionLog.Pass
