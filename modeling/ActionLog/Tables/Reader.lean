import ActionLog.Tables.Basic
import ActionLog.Tables.Version
import ActionLog.Text.Quoted
import ActionLog.Yaml.Reader
import ActionLog.Yaml.Value

/-!
# Tables from a file

Tables are written as a YAML mapping with a field for each of them.

* `decodeText`, `decodeList`, `decodeMap` — parts of a document as values: `none` if a part has the
  wrong form, `some none` if it stands for no value;
* `Tables.ofNode?` — the tables in a document; missing fields are empty;
* `TablesError`, `Tables.validate` — what is wrong with tables that can be read;
* `Tables.read` — the tables in a text.
-/

namespace ActionLog

/-- Why tables cannot be used. -/
inductive TablesError where
  | unreadable
  | version (version : Text)
  | noReserved
  | constructor (entry : Constructor)
  | shortName (entry : Alias)
  deriving DecidableEq, Repr

/-- The complaint about tables. -/
def TablesError.message : TablesError → Text
  | .unreadable => utf8 "parsing tables"
  | .version v => utf8 "unsupported tables version: " ++ Text.quote v ++ utf8 " (want v1.x.y)"
  | .noReserved => utf8 "empty table: reserved"
  | .constructor c =>
    utf8 "constructor entry \x7bName:" ++ c.name ++ utf8 " Base:" ++ c.base ++
      utf8 "\x7d: name and base are required"
  | .shortName a =>
    utf8 "short_names entry \x7bLong:" ++ a.long ++ utf8 " Short:" ++ a.short ++
      utf8 " Helper:" ++ a.helper ++ utf8 "\x7d: long and short are required"

namespace Tables

open Yaml (Node)

/-- A scalar as it is written. -/
def decodeText (n : Node) : Option (Option Text) :=
  match n.target with
  | .scalar plain tag text =>
    (Yaml.scalarValue? plain tag text).map fun v => if v = .nothing then none else some text
  | _ => none

/-- A sequence; items without a value are left out. -/
def decodeList {α : Type} (item : Node → Option (Option α)) (n : Node) :
    Option (Option (List α)) :=
  match n.target with
  | .sequence items => (items.mapM item).map fun xs => some (xs.filterMap id)
  | _ => if n.isNull then some none else none

/-- A field with its key as a name. -/
def decodeName (field : Node × Node) : Option (Option (Text × Node)) :=
  (decodeText field.1).map fun name => name.map fun name => (name, field.2)

/-- The fields of a mapping by their names; fields without a name are left out. -/
def decodeFields (n : Node) : Option (Option (List (Text × Node))) :=
  if n.isMapping then do
    let xs ← (← n.fields?).mapM decodeName
    return some (xs.filterMap id)
  else if n.isNull then some none
  else none

/-- A mapping from texts; a missing value is `empty`. -/
def decodeMap {α : Type} (empty : α) (value : Node → Option (Option α)) (n : Node) :
    Option (Option (List (Text × α))) := do
  match ← decodeFields n with
  | none => return none
  | some fields =>
    let xs ← fields.mapM fun (k, v) => (value v).map fun x => (k, x.getD empty)
    return some xs

/-- A field of a mapping; `empty` if it is missing. -/
def decodeField {α : Type} (fields : List (Text × Node)) (name : String) (empty : α)
    (value : Node → Option (Option α)) : Option α :=
  match List.lookup (utf8 name) fields with
  | some n => (value n).map (·.getD empty)
  | none => some empty

/-- A constructor and what its objects are called. -/
def decodeConstructor (n : Node) : Option (Option Constructor) := do
  match ← decodeFields n with
  | none => return none
  | some fs =>
    return some ⟨← decodeField fs "name" [] decodeText, ← decodeField fs "base" [] decodeText⟩

/-- A long method and its short name. -/
def decodeAlias (n : Node) : Option (Option Alias) := do
  match ← decodeFields n with
  | none => return none
  | some fs =>
    return some ⟨← decodeField fs "long" [] decodeText, ← decodeField fs "short" [] decodeText,
      ← decodeField fs "helper" [] decodeText⟩

/-- The tables in a document. -/
def ofNode? (n : Node) : Option Tables := do
  let fs := (← decodeFields n).getD []
  let texts := decodeList decodeText
  return {
    version := ← decodeField fs "version" [] decodeText
    reserved := ← decodeField fs "reserved" [] texts
    constructors := ← decodeField fs "constructors" [] (decodeList decodeConstructor)
    aliases := ← decodeField fs "short_names" [] (decodeList decodeAlias)
    junk := ← decodeField fs "junk" [] texts
    ambiguous := ← decodeField fs "ambiguous" [] (decodeMap [] texts)
    setters := ← decodeField fs "setters" [] texts
    ignoredKeys := ← decodeField fs "ignored_keys" [] texts
    codes := ← decodeField fs "charids" [] (decodeMap [] decodeText) }

/-- Tables of the first version, with reserved words and without incomplete entries. -/
def validate (t : Tables) : Except TablesError Tables :=
  if majorVersion? t.version != some (utf8 "1") then .error (.version t.version)
  else if t.reserved.isEmpty then .error .noReserved
  else
    match t.constructors.find? fun c => c.name == [] || c.base == [] with
    | some c => .error (.constructor c)
    | none =>
      match t.aliases.find? fun a => a.long == [] || a.short == [] with
      | some a => .error (.shortName a)
      | none => .ok t

/-- The tables in a text. -/
def read (s : Text) : Except TablesError Tables :=
  match (Yaml.document? s).bind ofNode? with
  | some t => t.validate
  | none => .error .unreadable

end Tables

end ActionLog
