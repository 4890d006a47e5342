import ActionLog.Value
import ActionLog.Yaml.Node
import ActionLog.Yaml.Timestamp

/-!
# Values of nodes

A quoted scalar is a text.  A plain scalar may also be a truth value, a number, a point in time, or
nothing at all.  A tag says what a scalar has to be.

* `plainValue` — what a plain scalar without a tag denotes;
* `Node.fields?` — the fields of a mapping, with those that the key `<<` adds to it;
* `Node.value?` — the value of a node; none if a part of it does not fit its tag, if a mapping gives
  a key twice or has a collection as a key, or if it contains itself.
-/

namespace ActionLog.Yaml

/-- The plain scalars that stand for no value. -/
def nullWords : List Text := ["", "~", "null", "Null", "NULL"].map utf8

/-- The integer that a plain scalar denotes, in 64 bits with a sign or without one. -/
def integer? (s : Text) : Option Int :=
  ((Text.parseInt s).toOption).or ((Text.parseNat s).toOption.map Int.ofNat)

/-- The double that a plain scalar denotes. -/
def double? (s : Text) : Option Double := (Scientific.parse? s).bind Double.nearest?

/-- The integer after the mark of a base that has a sign after it. -/
def markedInteger? (s : Text) : Option Int :=
  ((Text.after? (utf8 "0b") s).bind (Text.parseSignedIn? 2)).or
    ((Text.after? (utf8 "0o") s).bind (Text.parseSignedIn? 8))

/-- The number that a plain scalar with a digit or a sign at its start denotes; underscores do not
count. -/
def numeral? (s : Text) : Option Value :=
  let s := s.filter (· != Byte.underscore)
  ((integer? s).map .int).or (((double? s).map .number).or ((markedInteger? s).map .int))

/-- Whether every underscore stands between two digits. -/
def underscoresSeparate (before : Option UInt8) : Text → Bool
  | [] => before != some Byte.underscore
  | b :: s =>
    (if b == Byte.underscore then before.any Byte.isDigit
      else before != some Byte.underscore || Byte.isDigit b) && underscoresSeparate (some b) s

/-- The number that a plain scalar with a point at its start denotes. -/
def fraction? (s : Text) : Option Value :=
  if underscoresSeparate none s then
    (double? (s.filter (· != Byte.underscore))).map .number
  else none

/-- The words that denote values. -/
def wordValue? (s : Text) : Option Value :=
  if nullWords.contains s then some .nothing
  else if (["true", "True", "TRUE"].map utf8).contains s then some (.bool true)
  else if (["false", "False", "FALSE"].map utf8).contains s then some (.bool false)
  else if ([".nan", ".NaN", ".NAN"].map utf8).contains s then some (.number .notNumber)
  else if (([".inf", ".Inf", ".INF", "+.inf", "+.Inf", "+.INF"].map utf8).contains s) then
    some (.number (.infinite false))
  else if (["-.inf", "-.Inf", "-.INF"].map utf8).contains s then
    some (.number (.infinite true))
  else none

/-- The value of a plain scalar without a tag; `times` tells whether it may be a point in time. -/
def plainValue (times : Bool) (s : Text) : Value :=
  match wordValue? s with
  | some v => v
  | none =>
    if times && isTimestamp s then .other
    else
      let number :=
        match s.head? with
        | none => none
        | some b =>
          if Byte.isDigit b || b == Byte.minus || b == 0x2B then numeral? s
          else if b == Byte.dot then fraction? s
          else none
      number.getD (.text s)

/-- The value of a scalar whose tag says what it has to be; unknown tags say nothing. -/
def taggedValue? (tag s : Text) : Option Value :=
  let v := plainValue (tag == utf8 "!!timestamp") s
  if tag == utf8 "!!bool" then if v matches .bool _ then some v else none
  else if tag == utf8 "!!int" then if v matches .int _ then some v else none
  else if tag == utf8 "!!null" then if v matches .nothing then some v else none
  else if tag == utf8 "!!timestamp" then if v matches .other then some v else none
  else if tag == utf8 "!!float" then
    match v with
    | .number _ => some v
    | .int n => if n < Text.negativeCount then (double? (Text.signed n)).map .number else none
    | _ => none
  else some (.text s)

/-- The value of a scalar. -/
def scalarValue? (plain : Bool) (tag s : Text) : Option Value :=
  if tag != [] then taggedValue? tag s
  else some (if plain then plainValue true s else .text s)

namespace Node

/-- Whether a node stands for no value. -/
def isNull (n : Node) : Bool :=
  match n.target with
  | .scalar plain tag s => scalarValue? plain tag s == some .nothing
  | _ => false

/-- Whether a key says that the fields of other mappings belong to this one. -/
def isMerge : Node → Bool
  | .scalar plain tag s =>
    s == utf8 "<<" && ((plain && tag == []) || tag == utf8 "!!merge")
  | _ => false

/-- Whether a node is a mapping. -/
def isMapping (n : Node) : Bool := n.target matches .mapping _

/-- The fields whose keys come neither in `seen` nor among the fields before. -/
def firstFields (seen : List Text) : List (Node × Node) → List (Node × Node)
  | [] => []
  | (key, value) :: fields =>
    match key.target with
    | .scalar _ _ s =>
      if seen.contains s then firstFields seen fields
      else (key, value) :: firstFields (s :: seen) fields
    | _ => (key, value) :: firstFields seen fields

/-- The texts that are keys. -/
def keyTexts (fields : List (Node × Node)) : List Text :=
  fields.filterMap fun (key, _) =>
    match key.target with
    | .scalar plain tag s => if scalarValue? plain tag s = some (.text s) then some s else none
    | _ => none

mutual

/-- The fields of a mapping: its own, and those of other mappings that belong to it; none if the node
is no mapping, or if a mapping gives a key twice. -/
def fields? : Node → Option (List (Node × Node))
  | .mapping fields =>
    if repeats fields then none
    else do
      let own := fields.filter fun f => !f.1.isMerge
      let others ← fields.attach.mapM fun ⟨f, _⟩ =>
        if f.1.isMerge then mergedFields? f.2 else some []
      return own ++ firstFields (keyTexts own) others.flatten
  | .alias _ n => fields? n
  | _ => none
termination_by n => (sizeOf n, 0)
decreasing_by
  · rcases f with ⟨a, b⟩
    have := List.sizeOf_lt_of_mem ‹(a, b) ∈ fields›
    apply Prod.Lex.left
    simp at *
    omega
  · apply Prod.Lex.left
    simp only [Node.alias.sizeOf_spec]
    omega

/-- The fields of the mapping or the mappings that belong to another one. -/
def mergedFields? : Node → Option (List (Node × Node))
  | .sequence items => do
    let lists ← items.attach.mapM fun ⟨n, _⟩ => if n.isMapping then fields? n else none
    return lists.flatten
  | n => if n.isMapping then fields? n else none
termination_by n => (sizeOf n, 1)
decreasing_by
  · have := List.sizeOf_lt_of_mem ‹n ∈ items›
    apply Prod.Lex.left
    simp
    omega
  · apply Prod.Lex.right
    decide

end

/-- Whether all parts of a node have values. -/
def isSound : Node → Bool
  | .scalar plain tag s => (scalarValue? plain tag s).isSome
  | .sequence items => items.attach.all fun ⟨n, _⟩ => isSound n
  | .mapping fields =>
    (fields? (.mapping fields)).isSome && fields.attach.all fun ⟨f, _⟩ =>
      !f.1.isCollection && isSound f.1 && isSound f.2
  | .alias _ n => isSound n
  | .endless _ => false
termination_by n => sizeOf n
decreasing_by
  · have := List.sizeOf_lt_of_mem ‹n ∈ items›; simp; omega
  · rcases f with ⟨a, b⟩; have := List.sizeOf_lt_of_mem ‹(a, b) ∈ fields›; simp at *; omega
  · rcases f with ⟨a, b⟩; have := List.sizeOf_lt_of_mem ‹(a, b) ∈ fields›; simp at *; omega
  · simp only [Node.alias.sizeOf_spec]; omega

/-- The value of a node. -/
def value? (n : Node) : Option Value :=
  if n.isSound then
    match n.target with
    | .scalar plain tag s => scalarValue? plain tag s
    | _ => some .other
  else none

end Node

end ActionLog.Yaml
