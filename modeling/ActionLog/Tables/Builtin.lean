import ActionLog.Tables.Basic

/-!
# The built-in tables

The tables used unless others are read from a file.
-/

namespace ActionLog.Tables

namespace Builtin

/-- Words that no scope hands out: those of the language, and the names of its host. -/
def reserved : List String :=
  ["app", "arguments", "break", "case", "catch", "charIDToTypeID", "class", "const", "continue",
   "debugger", "default", "delete", "DialogModes", "do", "else", "enum", "eval", "executeAction",
   "executeActionGet", "export", "extends", "false", "finally", "for", "function", "if",
   "implements", "import", "in", "Infinity", "instanceof", "interface", "let", "NaN", "new",
   "null", "package", "private", "protected", "public", "return", "static", "stringIDToTypeID",
   "super", "switch", "this", "throw", "true", "try", "typeIDToCharID", "typeIDToStringID",
   "typeof", "undefined", "var", "void", "while", "with", "yield", "ActionDescriptor",
   "ActionList", "ActionReference"]

/-- Objects and what they are called. -/
def constructors : List (String × String) :=
  [("ActionDescriptor", "descriptor"), ("ActionList", "list"), ("ActionReference", "reference")]

/-- Long methods and their short names. -/
def aliases : List (String × String) :=
  [("stringIDToTypeID", "s2t"), ("charIDToTypeID", "c2t"), ("typeIDToStringID", "t2s")]

/-- Texts that only junk entries contain. -/
def junk : List String :=
  ["stringIDToTypeID( \"invokeCommand\" );", "stringIDToTypeID( \"modalStateChanged\" );",
   "stringIDToTypeID( \"toggleSearch\" );", "stringIDToTypeID( \"modalHTMLPending\" );",
   "stringIDToTypeID( \"convertJSONdescriptor\" );"]

/-- Codes shared by several identifiers. -/
def ambiguous : List (String × List String) :=
  [("Algn", ["align", "alignment"]), ("AntA", ["antiAlias", "antiAliasedPICTAcquire"]),
   ("BckL", ["backLight", "backLightStrength"]), ("Chnl", ["channel", "channels"]),
   ("Clr ", ["color", "colors"]), ("Grn ", ["grain", "green"])]

/-- Methods whose last argument is a value. -/
def setters : List String :=
  ["putBoolean", "putDouble", "putInteger", "putLargeInteger", "putString", "putUnitDouble"]

/-- Keys whose values are never lifted. -/
def ignoredKeys : List String :=
  ["ID", "count", "documentID", "itemIndex", "layerID", "version"]

/-- Codes and their identifiers. -/
def codes : List (String × String) :=
  [("#Pxl", "pixelsUnit"), ("#Prc", "percentUnit"), ("#Rlt", "distanceUnit"),
   ("#Rsl", "densityUnit"), ("Bl  ", "blue"), ("Cpy ", "copy"), ("Dcmn", "document"),
   ("Dlt ", "delete"), ("DocI", "documentID"), ("Dpth", "depth"), ("Fl  ", "fill"),
   ("Gdes", "guides"), ("Hd  ", "hide"), ("Hght", "height"), ("Hrzn", "horizontal"),
   ("Lyr ", "layer"), ("Md  ", "mode"), ("Mk  ", "make"), ("Nm  ", "name"), ("Nw  ", "new"),
   ("Ofst", "offset"), ("Opct", "opacity"), ("Ordn", "ordinal"), ("RGBM", "RGBColorMode"),
   ("Rd  ", "red"), ("Rslt", "resolution"), ("Scl ", "scale"), ("Shw ", "show"), ("T   ", "to"),
   ("Trgt", "targetEnum"), ("Trnf", "transform"), ("Vrtc", "vertical"), ("Wdth", "width"),
   ("Wht ", "white"), ("null", "null"), ("setd", "set"), ("slct", "select")]

end Builtin

/-- The built-in tables. -/
def builtin : Tables where
  version := utf8 "v1.2.0"
  reserved := Builtin.reserved.map utf8
  constructors := Builtin.constructors.map fun (name, base) =>
    ⟨utf8 name, utf8 base⟩
  aliases := Builtin.aliases.map fun (long, short) =>
    ⟨utf8 long, utf8 short, []⟩
  junk := Builtin.junk.map utf8
  ambiguous := Builtin.ambiguous.map fun (code, ids) =>
    (utf8 code, ids.map utf8)
  setters := Builtin.setters.map utf8
  ignoredKeys := Builtin.ignoredKeys.map utf8
  codes := Builtin.codes.map fun (code, id) => (utf8 code, utf8 id)

end ActionLog.Tables
