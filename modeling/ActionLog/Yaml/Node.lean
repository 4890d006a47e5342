import ActionLog.Text.Basic

/-!
# Contents of a document

* `Node` — a document or a part of one;
* `Node.target` — the node that an alias stands for;
* `Node.repeats` — whether a mapping gives a key twice.
-/

namespace ActionLog.Yaml

/-- A part of a document.  A scalar has its tag, if it has one, and is plain or not, which decides
what it denotes.  An alias stands for a node before it, or for one that it is a part of. -/
inductive Node where
  | scalar (plain : Bool) (tag text : Text)
  | sequence (items : List Node)
  | mapping (fields : List (Node × Node))
  | alias (name : Text) (target : Node)
  | endless (name : Text)

namespace Node

/-- The scalar that is not written at all. -/
def null : Node := .scalar true [] []

/-- The node that an alias stands for. -/
def target : Node → Node
  | .alias _ n => n.target
  | n => n

/-- Whether a node is a sequence or a mapping. -/
def isCollection (n : Node) : Bool :=
  match n.target with
  | .sequence _ | .mapping _ => true
  | _ => false

/-- Whether two keys count as the same: scalars with one text, aliases with one name, or collections
of one kind. -/
def sameKey : Node → Node → Bool
  | .scalar _ _ a, .scalar _ _ b => a == b
  | .sequence _, .sequence _ => true
  | .mapping _, .mapping _ => true
  | .alias a _, .alias b _ => a == b
  | .alias a _, .endless b => a == b
  | .endless a, .alias b _ => a == b
  | .endless a, .endless b => a == b
  | _, _ => false

/-- Whether one of the fields has the key of a later one. -/
def repeats : List (Node × Node) → Bool
  | [] => false
  | (k, _) :: fields => fields.any (fun (k', _) => sameKey k k') || repeats fields

end Node

end ActionLog.Yaml
