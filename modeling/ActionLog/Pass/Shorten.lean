import ActionLog.Pass.Error
import ActionLog.Tables.Basic
import ActionLog.Text.Scan

/-!
# Short names for long methods

Every use of a long method, with or without its host `app.`, becomes its short name, and the lines
that declare the short names are put in front.

* `longName` — the pattern of a long method between word boundaries;
* `applyAliases` — a text with the aliases applied one after another, and those that were used;
* `withHelpers` — that text after its helper lines;
* `shorten` — the pass (`ShortenMethods`), which aborts on a long name that is not valid text.
-/

namespace ActionLog.Pass

/-- A name between word boundaries, and the number of its bytes. -/
def bounded? (name : Text) (before : Option UInt8) (rest : Text) : Option Nat := do
  let n ← Text.literal? name rest
  if Text.isBoundary before rest.head? &&
      Text.isBoundary (rest.take n).getLast? (rest.drop n).head? then some n
  else none

/-- The host object that methods may be called on. -/
def host : Text := utf8 "app."

/-- A long method between word boundaries, together with the host before it if there is one. -/
def longName (long : Text) : Text.Pattern Unit := fun before rest =>
  let hosted : Option Nat := do
    let method ← Text.after? host rest
    let n ← bounded? long host.getLast? method
    if Text.isBoundary before rest.head? then some (host.length + n) else none
  (hosted <|> bounded? long before rest).map fun n => (n, ())

/-- The text with the aliases applied in order, and the aliases that were of use. -/
def applyAliases : List Alias → Text → Text × List Alias
  | [], s => (s, [])
  | a :: as, s =>
    if a.long == [] || (Text.find? .char (longName a.long) s).isNone then applyAliases as s
    else
      let shortened := Text.replaceHits .char
        (fun before rest => (longName a.long before rest).map fun (n, _) => (n, a.short)) s
      let (s, used) := applyAliases as shortened
      (s, a :: used)

/-- The text with short method names, after the lines that declare them. -/
def withHelpers (aliases : List Alias) (s : Text) : Text :=
  match applyAliases aliases s with
  | (s, []) => s
  | (s, used) => Text.unlines (used.map Alias.helperLine) ++ utf8 "\n\n" ++ s

/-- `longName` as it is written. -/
def longNameSource (long : Text) : Text :=
  utf8 "(?:\\bapp\\.)?\\b" ++ Abort.escapeName long ++ utf8 "\\b"

/-- `ShortenMethods`: the text with short method names, unless a long one cannot be searched for. -/
def shorten (aliases : List Alias) (s : Text) : Outcome Text Text :=
  match aliases.find? fun a => !Text.isValid a.long with
  | some a => .error (.aborted (.pattern (longNameSource a.long)))
  | none => .ok (withHelpers aliases s)

end ActionLog.Pass
