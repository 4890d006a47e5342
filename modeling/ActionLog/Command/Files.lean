import ActionLog.Text.Basic

/-!
# Files

What the command line does with files, apart from where they are.

* `FileError` — why a file could not be read or written;
* `Host` — standard input and the operations on files, in any monad;
* `FileTree` — files in memory, and the host that they make.

Paths are walked part by part, so that a path through a file or a missing directory fails there.
-/

namespace ActionLog.Command

/-- What is wrong with a path. -/
inductive FileCause where
  | missing
  | isDirectory
  | notDirectory
  | tooLong
  | badName
  | other (reason : Text)
  deriving DecidableEq, Repr

/-- A failed operation on a file. -/
structure FileError where
  action : Text
  name : Text
  cause : FileCause
  deriving DecidableEq, Repr

/-- The name of a cause. -/
def FileCause.message : FileCause → Text
  | .missing => utf8 "no such file or directory"
  | .isDirectory => utf8 "is a directory"
  | .notDirectory => utf8 "not a directory"
  | .tooLong => utf8 "file name too long"
  | .badName => utf8 "invalid argument"
  | .other reason => reason

/-- The complaint about a file. -/
def FileError.message (e : FileError) : Text :=
  e.action ++ utf8 " " ++ e.name ++ utf8 ": " ++ e.cause.message

/-- The operations on files, and standard input. -/
structure Host (m : Type → Type) where
  input : m Text
  read : Text → m (Except FileError Text)
  write : Text → Text → m (Except FileError Unit)
  isFile : Text → m Bool

/-- Files with their paths, below one directory. -/
structure FileTree where
  files : List (List Text × Text)

namespace FileTree

/-- The parts of a path. -/
def parts (path : Text) : List Text := List.splitOn 0x2F path

/-- Parts that lead nowhere new. -/
def isIdle (part : Text) : Bool := part == [] || part == utf8 "."

/-- Files given by their paths as they are written. -/
def ofPaths (files : List (Text × Text)) : FileTree :=
  ⟨files.map fun (path, contents) => ((parts path).filter fun part => !isIdle part, contents)⟩

/-- The paths as they are written. -/
def toPaths (t : FileTree) : List (Text × Text) :=
  t.files.map fun (path, contents) => (Text.join [0x2F] path, contents)

/-- The contents of a file. -/
def contents? (t : FileTree) (path : List Text) : Option Text := List.lookup path t.files

/-- Whether a path leads to a directory: it is the root, or a file is below it. -/
def isDirectory (t : FileTree) (path : List Text) : Bool :=
  path.isEmpty || t.files.any fun (file, _) => path.isPrefixOf file && path != file

/-- Where a path can lead to: below the root, to a directory above it, or to something next to the
root or above it, of which nothing is known. -/
inductive Location where
  | below (path : List Text)
  | above
  | beside
  deriving DecidableEq, Repr

/-- The longest name that a part of a path may have. -/
def maxName : Nat := 255

/-- The longest path. -/
def maxPath : Nat := 4095

/-- What keeps a location from having parts, if anything does. -/
def blocked? (t : FileTree) : Location → Option FileCause
  | .below path =>
    if t.isDirectory path then none
    else some (if (t.contents? path).isSome then .notDirectory else .missing)
  | .above => none
  | .beside => some .missing

/-- Where one part leads from a location. -/
def enter (here : Location) (part : Text) : Except FileCause Location :=
  if isIdle part then .ok here
  else if part == utf8 ".." then
    match here with
    | .below (first :: rest) => .ok (.below (first :: rest).dropLast)
    | _ => .ok .above
  else if maxName < part.length then .error .tooLong
  else
    match here with
    | .below path => .ok (.below (path ++ [part]))
    | _ => .ok .beside

/-- Where a path leads to, starting at a location.  Every part but the last has to be a
directory. -/
def walk (t : FileTree) (here : Location) : List Text → Except FileCause Location
  | [] => .ok here
  | part :: rest =>
    match t.blocked? here with
    | some cause => .error cause
    | none => do walk t (← enter here part) rest

/-- What is wrong with a path as it is written, if anything is. -/
def malformed? (path : Text) : Option FileCause :=
  if path.contains 0x00 then some .badName
  else if path == [] then some .missing
  else if maxPath < path.length then some .tooLong
  else none

/-- Where the parts of a path lead to. -/
def locate (t : FileTree) (path : Text) (steps : List Text) : Except FileCause Location :=
  match malformed? path with
  | some cause => .error cause
  | none => t.walk (if path.head? == some 0x2F then .above else .below []) steps

/-- The contents of the file at a path. -/
def read (t : FileTree) (path : Text) : Except FileError Text :=
  match t.locate path (parts path) with
  | .error cause => .error ⟨utf8 "open", path, cause⟩
  | .ok .above => .error ⟨utf8 "read", path, .isDirectory⟩
  | .ok .beside => .error ⟨utf8 "open", path, .missing⟩
  | .ok (.below file) =>
    match t.contents? file with
    | some contents => .ok contents
    | none =>
      if t.isDirectory file then .error ⟨utf8 "read", path, .isDirectory⟩
      else .error ⟨utf8 "open", path, .missing⟩

/-- The parts of a path without slashes at its end, and whether there were any after a name. -/
def target (path : Text) : List Text × Bool :=
  let steps := (((parts path).reverse.dropWhile (· == [])).reverse)
  (steps, path.getLast? == some 0x2F && steps.getLast?.any fun last =>
    !isIdle last && last != utf8 "..")

/-- The files with other contents at a path.  A name before a slash would be a directory, which
cannot be written. -/
def write (t : FileTree) (path contents : Text) : Except FileError FileTree :=
  let fail (cause : FileCause) : Except FileError FileTree := .error ⟨utf8 "open", path, cause⟩
  let (steps, slashed) := target path
  match t.locate path (if slashed then steps.dropLast else steps) with
  | .error cause => fail cause
  | .ok .above => fail .isDirectory
  | .ok .beside => if slashed then fail .missing else .ok t
  | .ok (.below file) =>
    if slashed then fail ((t.blocked? (.below file)).getD .isDirectory)
    else if t.isDirectory file then fail .isDirectory
    else .ok ⟨t.files.filter (·.1 != file) ++ [(file, contents)]⟩

/-- Whether there is a file at a path. -/
def isFile (t : FileTree) (path : Text) : Bool := (t.read path).toBool

/-- The host whose files are in memory, with a given input. -/
def host (input : Text) : Host (StateM FileTree) where
  input := return input
  read path := return (← get).read path
  write path contents := do
    match (← get).write path contents with
    | .ok t => set t; return .ok ()
    | .error e => return .error e
  isFile path := return (← get).isFile path

/-- The files that another tree does not hold with the same contents. -/
def changedFrom (t old : FileTree) : FileTree :=
  ⟨t.files.filter fun (path, contents) => old.contents? path != some contents⟩

end FileTree

end ActionLog.Command
