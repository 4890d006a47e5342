import ActionLog.Code.Table

/-!
# Tables

The data that the passes read: which words may not be handed out as names, how objects and long
methods are called, what marks an entry as junk, and what codes stand for.

* `Constructor` — the name given to the objects that a constructor makes;
* `Alias` — a short name for a long method, and `Alias.helperLine`, which declares it;
* `Tables` — all of them together.
-/

namespace ActionLog

/-- Objects made by `name` are called `base`. -/
structure Constructor where
  name : Text
  base : Text
  deriving DecidableEq, Repr

/-- The method `long` is called `short`.  An empty `helper` stands for the usual declaration. -/
structure Alias where
  long : Text
  short : Text
  helper : Text
  deriving DecidableEq, Repr

/-- `HelperLine`: the line that declares the short name of a method. -/
def Alias.helperLine (a : Alias) : Text :=
  if a.helper != [] then a.helper
  else
    utf8 "var " ++ a.short ++ utf8 " = function (s) \x7b return app." ++ a.long ++ utf8 "(s); \x7d;"

/-- The static data of the passes. -/
structure Tables where
  version : Text
  reserved : List Text
  constructors : List Constructor
  aliases : List Alias
  junk : List Text
  ambiguous : List (Text × List Text)
  setters : List Text
  ignoredKeys : List Text
  codes : CodeTable
  deriving DecidableEq, Repr

namespace Tables

/-- The codes that have more than one identifier. -/
def ambiguousCodes (t : Tables) : List Text := t.ambiguous.map (·.1)

/-- `IsAmbiguous`: whether a code has more than one identifier. -/
def isAmbiguous (t : Tables) (code : Text) : Bool := t.ambiguousCodes.contains code

/-- `IsIgnoredKey`: whether the values of a key are never lifted into parameters. -/
def isIgnoredKey (t : Tables) (key : Text) : Bool := t.ignoredKeys.contains key

/-- The codebook made of the tables. -/
def codebook (t : Tables) : Codebook := Codebook.ofTable t.codes t.ambiguousCodes

end Tables

end ActionLog
