import ActionLog.Text.Integer
import ActionLog.Text.Quoted

/-!
# The command line

* `Verb` — what is asked for, and `Verb.flags`, which flags go with it;
* `FlagError` — what is wrong with a command line, and its wording;
* `Flags` — the flags that were given, the latest last;
* `verbOf` — the verb of a command line, its first argument that is no flag;
* `parse` — flags and arguments of a command line.

A flag is written `--name=value` or `--name value`; flags that are switches take no second word.
Flags of one letter may be run together.  After `--` everything is an argument.
-/

namespace ActionLog.Command

/-- The kinds of values that flags take. -/
inductive FlagKind where
  | switch
  | integer
  | text
  deriving DecidableEq, Repr

/-- A flag, its kind, and its letter if it has one. -/
structure Flag where
  name : Text
  kind : FlagKind
  letter : Option UInt8
  deriving DecidableEq, Repr

/-- The value that a flag was given. -/
inductive FlagValue where
  | switch (on : Bool)
  | integer (n : Int)
  | text (s : Text)
  deriving DecidableEq, Repr

/-- What a command line asks for. -/
inductive Verb where
  | clean
  | junk
  | passes
  | version
  deriving DecidableEq, Repr

namespace Verb

/-- The word that asks for a verb; cleaning needs none. -/
def ofWord? (word : Text) : Option Verb :=
  if word == utf8 "junk" then some .junk
  else if word == utf8 "passes" then some .passes
  else if word == utf8 "version" then some .version
  else none

/-- How a verb is used. -/
def usage : Verb → Text
  | .clean => utf8 "cleansl [flags] [file|-]"
  | .junk => utf8 "cleansl junk [flags] [file|-]"
  | .passes => utf8 "cleansl passes"
  | .version => utf8 "cleansl version"

/-- How many arguments a verb takes. -/
def maxArguments : Verb → Nat
  | .clean | .junk => 1
  | .passes | .version => 0

end Verb

/-- The switches that select the stages, as flags name them. -/
def stageSwitches : List String :=
  ["resolve-conflicts", "hoist", "consolidate", "descriptive-names", "charid-to-stringid",
   "shorten", "extract-params", "wrap"]

/-- The flags that go with every verb. -/
def commonFlags : List Flag :=
  stageSwitches.map (fun name => ⟨utf8 name, .switch, none⟩) ++
  [⟨utf8 "lookahead", .integer, none⟩, ⟨utf8 "tables", .text, none⟩,
   ⟨utf8 "log-level", .text, none⟩, ⟨utf8 "cache-size", .integer, none⟩,
   ⟨utf8 "config", .text, none⟩]

/-- The flag that names the file to write. -/
def outputFlag : Flag := ⟨utf8 "output", .text, some 0x6F⟩

/-- The flag that asks for help. -/
def helpFlag : Flag := ⟨utf8 "help", .switch, some 0x68⟩

/-- The flags that go with a verb, apart from the one that asks for help. -/
def Verb.flags : Verb → List Flag
  | .clean =>
    commonFlags ++ [⟨utf8 "last", .switch, none⟩, ⟨utf8 "diff", .switch, none⟩, outputFlag]
  | .junk => commonFlags ++ [outputFlag]
  | .passes | .version => commonFlags

/-- What is wrong with a command line. -/
inductive FlagError where
  | badSyntax (word : Text)
  | unknownName (name : Text)
  | unknownLetter (letter : UInt8) (letters : Text)
  | noValue (word : Text)
  | noLetterValue (letter : UInt8) (letters : Text)
  | notInteger (flag : Flag) (value : Text) (cause : Text.IntError)
  | notBool (flag : Flag) (value : Text)
  deriving DecidableEq, Repr

/-- A letter between single quotes. -/
def quoteLetter (b : UInt8) : Text :=
  [Byte.singleQuote] ++
    (if b == Byte.singleQuote then utf8 "\\'"
      else if b == Byte.doubleQuote then [b] else Text.escape (.char b.toNat)) ++
    [Byte.singleQuote]

/-- The complaint about a command line. -/
def FlagError.message : FlagError → Text
  | .badSyntax word => utf8 "bad flag syntax: " ++ word
  | .unknownName name => utf8 "unknown flag: --" ++ name
  | .unknownLetter b letters =>
    utf8 "unknown shorthand flag: " ++ quoteLetter b ++ utf8 " in -" ++ letters
  | .noValue word => utf8 "flag needs an argument: " ++ word
  | .noLetterValue b letters =>
    utf8 "flag needs an argument: " ++ quoteLetter b ++ utf8 " in -" ++ letters
  | .notInteger flag value cause =>
    invalid flag value ++ utf8 "strconv.ParseInt: parsing " ++ Text.quote value ++
      match cause with
      | .malformed => utf8 ": invalid syntax"
      | .range => utf8 ": value out of range"
  | .notBool flag value =>
    invalid flag value ++ utf8 "strconv.ParseBool: parsing " ++ Text.quote value ++
      utf8 ": invalid syntax"
where
  invalid (flag : Flag) (value : Text) : Text :=
    utf8 "invalid argument " ++ Text.quote value ++ utf8 " for \"" ++
      ((flag.letter.map fun b => utf8 "-" ++ [b] ++ utf8 ", ").getD []) ++
      utf8 "--" ++ flag.name ++ utf8 "\" flag: "

/-- The flags that were given, in order. -/
abbrev Flags := List (Text × FlagValue)

namespace Flags

/-- The value that a flag was given last. -/
def get? (fs : Flags) (name : String) : Option FlagValue :=
  List.lookup (utf8 name) fs.reverse

/-- Whether a switch is on; it is off unless it was given. -/
def isOn (fs : Flags) (name : String) : Bool := fs.get? name == some (.switch true)

/-- The text that a flag was given last; empty if there is none. -/
def text (fs : Flags) (name : String) : Text :=
  match fs.get? name with
  | some (.text s) => s
  | _ => []

end Flags

/-- The value of a flag from the text it was given. -/
def Flag.read (f : Flag) (value : Text) : Except FlagError FlagValue :=
  match f.kind with
  | .text => .ok (.text value)
  | .switch =>
    match Text.parseBool? value with
    | some b => .ok (.switch b)
    | none => .error (.notBool f value)
  | .integer =>
    match Text.parseInt value with
    | .ok n => .ok (.integer n)
    | .error cause => .error (.notInteger f value cause)

/-- Whether a word that looks like a flag takes the next word as its value. -/
def takesNext (known : List Flag) (word : Text) : Bool :=
  let isSwitch (f : Flag) : Bool := f.kind = .switch
  match word with
  | 0x2D :: 0x2D :: name =>
    !word.contains Byte.equals && !(known.find? (·.name == name)).any isSwitch
  | [0x2D, b] =>
    b != Byte.equals && !(known.find? (·.letter == some b)).any isSwitch
  | _ => false

/-- The words of a command line that are neither flags nor their values.  The value of the last
flag is its last word, if it takes one. -/
def plainWords (known : List Flag) : List Text → List Text
  | [] => []
  | word :: rest =>
    if word == utf8 "--" then []
    else if takesNext known word then
      match rest with
      | _ :: next :: more => plainWords known (next :: more)
      | _ => []
    else if word != [] && word.head? != some Byte.minus then word :: plainWords known rest
    else plainWords known rest

/-- The command line without the first plain word equal to `target`. -/
def removeWord (known : List Flag) (target : Text) : List Text → List Text
  | [] => []
  | word :: rest =>
    if word == utf8 "--" then word :: rest
    else if takesNext known word then
      match rest with
      | value :: more => word :: value :: removeWord known target more
      | [] => [word]
    else if word.head? != some Byte.minus && word == target then rest
    else word :: removeWord known target rest

/-- The verb of a command line, and the words that are left for it. -/
def verbOf (words : List Text) : Verb × List Text :=
  match (plainWords Verb.clean.flags words).head? with
  | none => (.clean, words)
  | some word =>
    match Verb.ofWord? word with
    | some verb => (verb, removeWord Verb.clean.flags word words)
    | none => (.clean, words)

/-- A flag given by its name, with the words after it: its value, and the words that are left. -/
def parseName (known : List Flag) (word : Text) (rest : List Text) :
    Except FlagError ((Text × FlagValue) × List Text) := do
  let body := word.drop 2
  if body.head?.any fun b => b == Byte.minus || b == Byte.equals then .error (.badSyntax word)
  else
    let name := body.takeWhile (· != Byte.equals)
    match known.find? (·.name == name) with
    | none => .error (.unknownName name)
    | some f =>
      if body.contains Byte.equals then
        return ((name, ← f.read (body.drop (name.length + 1))), rest)
      else if f.kind = .switch then return ((name, .switch true), rest)
      else
        match rest with
        | value :: rest => return ((name, ← f.read value), rest)
        | [] => .error (.noValue word)

/-- Letters that belong to a test runner's flags, which are passed over. -/
def isTestFlag (letters : Text) : Bool := (utf8 "test.").isPrefixOf letters

/-- Flags given by their letters, with the words after them. -/
def parseLetters (known : List Flag) (rest : List Text) :
    Text → Except FlagError (Flags × List Text)
  | [] => .ok ([], rest)
  | b :: letters => do
    if isTestFlag (b :: letters) then return ([], rest)
    match known.find? (·.letter == some b) with
    | none => .error (.unknownLetter b (b :: letters))
    | some f =>
      match letters with
      | 0x3D :: c :: value => return ([(f.name, ← f.read (c :: value))], rest)
      | _ =>
        if f.kind = .switch then
          let (fs, rest) ← parseLetters known rest letters
          return ((f.name, .switch true) :: fs, rest)
        else if letters != [] then return ([(f.name, ← f.read letters)], rest)
        else
          match rest with
          | value :: rest => return ([(f.name, ← f.read value)], rest)
          | [] => .error (.noLetterValue b [b])

/-- The flags and the arguments among words, of which there are at most `bound`. -/
def parseWords (known : List Flag) : (bound : Nat) → List Text → Except FlagError (Flags × List Text)
  | 0, _ => .ok ([], [])
  | _ + 1, [] => .ok ([], [])
  | bound + 1, word :: rest => do
    if word == utf8 "--" then return ([], rest)
    else if word.length < 2 || word.head? != some Byte.minus then
      let (fs, args) ← parseWords known bound rest
      return (fs, word :: args)
    else if word.take 2 == utf8 "--" then
      let (given, rest) ← parseName known word rest
      let (fs, args) ← parseWords known bound rest
      return (given :: fs, args)
    else
      let (given, rest) ← parseLetters known rest (word.drop 1)
      let (fs, args) ← parseWords known bound rest
      return (given ++ fs, args)

/-- The flags and the arguments of a command line. -/
def parse (known : List Flag) (words : List Text) : Except FlagError (Flags × List Text) :=
  parseWords known words.length words

end ActionLog.Command
