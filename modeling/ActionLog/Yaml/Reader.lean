import ActionLog.Yaml.Node
import ActionLog.Yaml.Stream

/-!
# Reading documents

* `Reading` — the state of reading a document: its tokens, the nodes that have names, and what the
  handles of tags mean;
* `node` — a node of a document;
* `document?` — the first document of a text; none if the text is not well-formed up to its end and
  the tokens that are looked at in advance.

Every call takes a token that no call before it took, so four times the length of the text bounds
how deeply calls nest.
-/

namespace ActionLog.Yaml

/-- The state of reading a document.  A name whose node is still being read has none. -/
structure Reading where
  stream : Stream
  names : List (List Char × Option Node)
  handles : List (List Char × List Char)

/-- Readers of nodes. -/
abbrev Read := StateT Reading Option

/-- A reader of tokens as a reader of nodes. -/
def tokens {α : Type} (p : Tokens α) : Read α := do
  let r ← get
  let (a, stream) ← p.run r.stream
  set { r with stream := stream }
  return a

/-- The next token. -/
def next : Read Token := tokens peek

/-- Passes over the next token. -/
def drop : Read Unit := tokens take

/-- Gives a node a name, if there is one. -/
def nameNode (name : Option (List Char)) (n : Option Node) : Read Unit :=
  match name with
  | some name => modify fun r => { r with names := (name, n) :: r.names }
  | none => return

/-- The bytes of characters. -/
def encode (s : List Char) : Text := s.flatMap fun x => Text.Utf8.encode x.toNat

/-- The start of the tags that are written with two exclamation marks. -/
def commonTags : Text := utf8 "tag:yaml.org,2002:"

/-- A tag in its short form; the empty tag and the single exclamation mark say nothing. -/
def shortTag (tag : Text) : Text :=
  match Text.after? commonTags tag with
  | some r => utf8 "!!" ++ r
  | none => if tag == utf8 "!" then [] else tag

/-- A tag from its handle and suffix. -/
def resolveTag (handle suffix : List Char) : Read Text := do
  if handle.isEmpty then return encode suffix
  else
    match List.lookup handle (← get).handles with
    | some meaning => return encode (meaning ++ suffix)
    | none => failure

/-- The name that a node is given, if it is given one here. -/
def anchorHere : Read (Option (List Char)) := do
  match ← next with
  | .anchor name => drop; return some name
  | _ => return none

/-- The tag that a node is given, if it is given one here. -/
def tagHere : Read (Option Text) := do
  match ← next with
  | .tag handle suffix => drop; return some (← resolveTag handle suffix)
  | _ => return none

/-- The name and the tag of a node, in any order. -/
def properties : Read (Option (List Char) × Option Text) := do
  match ← anchorHere with
  | some name => return (some name, ← tagHere)
  | none =>
    match ← tagHere with
    | some tag => return (← anchorHere, some tag)
    | none => return (none, none)

/-- The node that an alias names. -/
def aliased (name : List Char) : Read Node := do
  match List.lookup name (← get).names with
  | some (some n) => return .alias (encode name) n
  | some none => return .endless (encode name)
  | none => failure

/-- A collection, read by `contents`.  Its name stands for it only after its end. -/
def collection {α : Type} (name : Option (List Char)) (make : α → Node) (contents : Read α) :
    Read Node := do
  nameNode name none
  let n := make (← contents)
  nameNode name (some n)
  return n

mutual

/-- A node.  In a block it may be a block collection, and as a value of a block mapping also a
sequence on the level of its key. -/
def node : (fuel : Nat) → (block level : Bool) → Read Node
  | 0, _, _ => failure
  | fuel + 1, block, level => do
    match ← next with
    | .alias name => drop; aliased name
    | _ =>
      let (name, tag) ← properties
      match ← next with
      | .scalar plain text =>
        drop
        let n := Node.scalar plain (shortTag (tag.getD [])) (encode text)
        nameNode name (some n)
        return n
      | .openBracket => drop; collection name .sequence (flowItems fuel true)
      | .openBrace => drop; collection name .mapping (flowFields fuel true)
      | t =>
        if level && t = .dash then collection name .sequence (levelItems fuel)
        else if block && t = .blockSequence then
          drop; collection name .sequence (blockItems fuel)
        else if block && t = .blockMapping then
          drop; collection name .mapping (blockFields fuel)
        else if name.isSome || tag.isSome then
          let n := Node.scalar true (shortTag (tag.getD [])) []
          nameNode name (some n)
          return n
        else failure

/-- A node that is missing if one of some tokens comes next. -/
def nodeUnless : (fuel : Nat) → (ends : List Token) → (block level : Bool) → Read Node
  | 0, _, _, _ => failure
  | fuel + 1, ends, block, level => do
    if ends.contains (← next) then return .null else node fuel block level

/-- A value after its mark; without the mark it is missing. -/
def valueUnless : (fuel : Nat) → (ends : List Token) → (block : Bool) → Read Node
  | 0, _, _ => failure
  | fuel + 1, ends, block => do
    if (← next) = .value then
      drop
      nodeUnless fuel ends block block
    else return .null

/-- The items of a block sequence. -/
def blockItems : (fuel : Nat) → Read (List Node)
  | 0 => failure
  | fuel + 1 => do
    match ← next with
    | .dash =>
      drop
      let item ← nodeUnless fuel [.dash, .blockEnd] true false
      return item :: (← blockItems fuel)
    | .blockEnd => drop; return []
    | _ => failure

/-- The items of a block sequence on the level of the key it belongs to. -/
def levelItems : (fuel : Nat) → Read (List Node)
  | 0 => failure
  | fuel + 1 => do
    if (← next) = .dash then
      drop
      let item ← nodeUnless fuel [.dash, .key, .value, .blockEnd] true false
      return item :: (← levelItems fuel)
    else return []

/-- The fields of a block mapping. -/
def blockFields : (fuel : Nat) → Read (List (Node × Node))
  | 0 => failure
  | fuel + 1 => do
    match ← next with
    | .key =>
      drop
      let ends := [.key, .value, .blockEnd]
      let key ← nodeUnless fuel ends true true
      let value ← valueUnless fuel ends true
      return (key, value) :: (← blockFields fuel)
    | .blockEnd => drop; return []
    | _ => failure

/-- A mapping of one field inside a flow sequence, after the mark of its key.  Where no key follows
the mark, one more token is passed over. -/
def flowPair : (fuel : Nat) → Read Node
  | 0 => failure
  | fuel + 1 => do
    let key ←
      if [Token.value, .comma, .closeBracket].contains (← next) then do drop; pure Node.null
      else node fuel false false
    return .mapping [(key, ← valueUnless fuel [.comma, .closeBracket] false)]

/-- The items of a flow sequence; all but the first come after a comma. -/
def flowItems : (fuel : Nat) → (first : Bool) → Read (List Node)
  | 0, _ => failure
  | fuel + 1, first => do
    if (← next) = .closeBracket then drop; return []
    if !first then
      if (← next) = .comma then drop else failure
    match ← next with
    | .closeBracket => drop; return []
    | .key =>
      drop
      let item ← flowPair fuel
      return item :: (← flowItems fuel false)
    | _ =>
      let item ← node fuel false false
      return item :: (← flowItems fuel false)

/-- The fields of a flow mapping; all but the first come after a comma. -/
def flowFields : (fuel : Nat) → (first : Bool) → Read (List (Node × Node))
  | 0, _ => failure
  | fuel + 1, first => do
    if (← next) = .closeBrace then drop; return []
    if !first then
      if (← next) = .comma then drop else failure
    match ← next with
    | .closeBrace => drop; return []
    | .key =>
      drop
      let key ← nodeUnless fuel [.value, .comma, .closeBrace] false false
      let value ← valueUnless fuel [.comma, .closeBrace] false
      return (key, value) :: (← flowFields fuel false)
    | _ =>
      let key ← node fuel false false
      return (key, .null) :: (← flowFields fuel false)

end

/-- The directives before a document: at most one version, which has to be the supported one, and
handles of tags, each of them once. -/
def directives : (fuel : Nat) → (versioned : Bool) → Read Unit
  | 0, _ => failure
  | fuel + 1, versioned => do
    match ← next with
    | .version major minor =>
      if versioned || major ≠ 1 || minor ≠ 1 then failure
      drop
      directives fuel true
    | .handle handle meaning =>
      if ((← get).handles.map (·.1)).contains handle then failure
      modify fun r => { r with handles := r.handles ++ [(handle, meaning)] }
      drop
      directives fuel versioned
    | _ => return

/-- What the handles of tags mean unless a directive says otherwise. -/
def commonHandles : List (List Char × List Char) :=
  [(['!'], ['!']), (['!', '!'], "tag:yaml.org,2002:".toList)]

/-- The first document of a stream, to its end.  An empty stream is a missing value. -/
def document (fuel : Nat) : Read Node := do
  let _ ← next
  drop
  let isDirective (t : Token) : Bool := t matches .version _ _ || t matches .handle _ _
  let t ← next
  if t = .streamEnd then return .null
  else
    let root ←
      if isDirective t || t = .documentStart then do
        directives fuel false
        if (← next) ≠ .documentStart then failure
        drop
        modify fun r => { r with handles := r.handles ++ commonHandles }
        let t ← next
        if isDirective t || [Token.documentStart, .documentEnd, .streamEnd].contains t then
          pure .null
        else node fuel true false
      else do
        modify fun r => { r with handles := commonHandles }
        node fuel true false
    let _ ← next
    return root

/-- The first document of a text. -/
def document? (s : Text) : Option Node :=
  let cursor := Cursor.start (Source.ofText s)
  ((document (4 * s.length + 16)).run ⟨{ cursor := cursor }, [], []⟩).map (·.1)

end ActionLog.Yaml
