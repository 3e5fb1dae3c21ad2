import AliasTaint.Yaml.Token
import AliasTaint.Yaml.Number

/-!
# YAML documents that are mappings of scalars

A text holds at most one document, which is empty or a mapping. Keys and values of the mapping are
scalars, or aliases of scalars.
-/

namespace AliasTaint.Yaml

/-! ## Nodes -/

/-- What may stand in front of a node. -/
structure Properties where
  anchor : Option String
  tag : Option TagText
  deriving DecidableEq

def Properties.empty : Properties := ⟨none, none⟩

/-- A key or a value as it is written. -/
inductive Node where
  | alias (name : String)
  | scalar (properties : Properties) (scalar : Scalar)

/-- A node, a mark of structure, or properties that no scalar follows. -/
inductive Item where
  | node (node : Node)
  | mark (token : Token)
  | properties (properties : Properties)

/-- Joins scalars with the properties in front of them. Each property is given at most once, and an
alias has none. -/
def Item.ofTokens (properties : Properties) : List Token → Option (List Item)
  | [] => some (if properties = .empty then [] else [.properties properties])
  | .anchor name :: rest =>
      if properties.anchor.isSome then none
      else ofTokens { properties with anchor := some name } rest
  | .tag tag :: rest =>
      if properties.tag.isSome then none
      else ofTokens { properties with tag := some tag } rest
  | .scalar scalar :: rest =>
      (ofTokens .empty rest).map fun items => .node (.scalar properties scalar) :: items
  | .alias name :: rest =>
      if properties = .empty then
        (ofTokens .empty rest).map fun items => .node (.alias name) :: items
      else
        none
  | token :: rest =>
      (ofTokens .empty rest).map fun items =>
        if properties = .empty then .mark token :: items
        else .properties properties :: .mark token :: items

/-! ## Mappings -/

/-- The entries of a mapping by indentation, and what follows its end. -/
def blockEntries : List Item → Option (List (Node × Node) × List Item)
  | .mark .blockEnd :: rest => some ([], rest)
  | .mark .key :: .node key :: .mark .value :: .node value :: rest =>
      (blockEntries rest).map fun (entries, left) => ((key, value) :: entries, left)
  | _ => none

/-- The entries of a mapping in braces, and what follows its end. A comma may stand after the last
entry. -/
def flowEntries : List Item → Option (List (Node × Node) × List Item)
  | .mark .flowEnd :: rest => some ([], rest)
  | .mark .key :: .node key :: .mark .value :: .node value :: .mark .flowEnd :: rest =>
      some ([(key, value)], rest)
  | .mark .key :: .node key :: .mark .value :: .node value :: .mark .comma :: rest =>
      (flowEntries rest).map fun (entries, left) => ((key, value) :: entries, left)
  | _ => none

/-- The content of a document: its properties and entries. -/
structure Root where
  properties : Properties
  entries : List (Node × Node)

/-- Reads the mapping that a document consists of. With properties only, the document is empty. -/
def readRoot (properties : Properties) : List Item → Option (Root × List Item)
  | .mark .blockStart :: rest =>
      (blockEntries rest).map fun (entries, left) => (⟨properties, entries⟩, left)
  | .mark .flowStart :: rest =>
      (flowEntries rest).map fun (entries, left) => (⟨properties, entries⟩, left)
  | items => if properties = .empty then none else some (⟨properties, []⟩, items)

def readContent : List Item → Option (Root × List Item)
  | .properties properties :: rest => readRoot properties rest
  | items => readRoot .empty items

/-! ## Tags -/

/-- What the handles of tags stand for. -/
abbrev Handles := List (String × String)

/-- The handles that need no directive. -/
def standardHandles : Handles :=
  [("!", "!"), ("!!", "tag:yaml.org,2002:")]

/-- The full form of a tag, if its handle is known. -/
def TagText.expand? (handles : Handles) (tag : TagText) : Option String :=
  if tag.handle.isEmpty then some tag.suffix
  else (handles.lookup tag.handle).map (· ++ tag.suffix)

/-- The full form of an optional tag. It fails for an unknown handle only. -/
def Properties.fullTag? (handles : Handles) (properties : Properties) :
    Option (Option String) :=
  match properties.tag with
  | none => some none
  | some tag => (tag.expand? handles).map some

/-! ## Directives -/

/-- Reads the directives in front of a document: the handles that they define, and what follows.
The version is given once, and so is each handle. -/
def readDirectives (hasVersion : Bool) (handles : Handles) :
    List Item → Option (Handles × List Item)
  | .mark (.directive (.version major minor)) :: rest =>
      if !hasVersion && major = 1 && (minor = 1 || minor = 2) then
        readDirectives true handles rest
      else
        none
  | .mark (.directive (.handle handle expansion)) :: rest =>
      if (handles.lookup handle).isNone then
        readDirectives hasVersion ((handle, expansion) :: handles) rest
      else
        none
  | items => some (handles, items)

/-- The content after the start of a document, which may be empty. -/
def readStarted : List Item → Option (Root × List Item)
  | [] => some (⟨.empty, []⟩, [])
  | .mark .documentEnd :: rest => some (⟨.empty, []⟩, .mark .documentEnd :: rest)
  | items => readContent items

/-- Only ends of documents. -/
def areEnds (items : List Item) : Bool :=
  items.all fun item =>
    match item with
    | .mark .documentEnd => true
    | _ => false

/-- The only document of a text, and the handles of its tags. Its start is marked if it has
directives. -/
def readOnly : List Item → Option (Handles × Root)
  | [] => some (standardHandles, ⟨.empty, []⟩)
  | items => do
      let (handles, rest) ← readDirectives false [] items
      let (root, left) ← match rest with
        | .mark .documentStart :: content => readStarted content
        | _ => if rest.length = items.length then readContent items else none
      if areEnds left then some (handles ++ standardHandles, root) else none

/-! ## Aliases -/

/-- A scalar with its tag in full. -/
structure Content where
  scalar : Scalar
  tag : Option String

/-- The anchors of a document. An anchor has the number of the names that were known before it, and
an alias stands for the last anchor of the document with the number of its name. -/
structure Anchors where
  numbers : List (String × Nat)
  targets : List (Nat × Option Content)

def Anchors.empty : Anchors := ⟨[], []⟩

def Anchors.set (target : Option Content) (anchors : Anchors) (name : String) : Anchors :=
  let number := anchors.numbers.length
  { numbers := (name, number) :: anchors.numbers.filter fun known => known.1 ≠ name
    targets := (number, target) :: anchors.targets }

/-- Sets the anchor of a node, if it has one. -/
def Anchors.setOf (properties : Properties) (target : Option Content) (anchors : Anchors) :
    Anchors :=
  properties.anchor.elim anchors (anchors.set target)

/-- A scalar, or the number of the anchor that it has. -/
inductive Reference where
  | here (content : Content)
  | anchored (number : Nat)

/-- What a node refers to, and the anchors after it. An alias follows an anchor of its name. -/
def Node.refer (handles : Handles) (anchors : Anchors) : Node → Option (Reference × Anchors)
  | .alias name => (anchors.numbers.lookup name).map fun number => (.anchored number, anchors)
  | .scalar properties written =>
      (properties.fullTag? handles).map fun tag =>
        (.here ⟨written, tag⟩, anchors.setOf properties (some ⟨written, tag⟩))

def referAll (handles : Handles) (anchors : Anchors) :
    List (Node × Node) → Option (List (Reference × Reference) × Anchors)
  | [] => some ([], anchors)
  | (key, value) :: rest => do
      let (key, anchors) ← key.refer handles anchors
      let (value, anchors) ← value.refer handles anchors
      let (entries, anchors) ← referAll handles anchors rest
      some ((key, value) :: entries, anchors)

def Reference.content? (anchors : Anchors) : Reference → Option Content
  | .here content => some content
  | .anchored number => (anchors.targets.lookup number).join

/-- The entries of a document with all aliases replaced. -/
def Root.contents? (handles : Handles) (root : Root) : Option (List (Content × Content)) := do
  let _ ← root.properties.fullTag? handles
  let (entries, anchors) ←
    referAll handles (Anchors.empty.setOf root.properties none) root.entries
  entries.mapM fun (key, value) => do
    some (← key.content? anchors, ← value.content? anchors)

/-- The number that a scalar stands for. It is written plainly, or as a literal block that is tagged
as a number. -/
def Content.number? (content : Content) : Option UInt64 :=
  if content.scalar.style = .plain ||
      (content.scalar.style = .literal && content.tag = some "tag:yaml.org,2002:int") then
    Yaml.number? content.scalar.text.toList
  else
    none

/-- The entries of the mapping that a text consists of. An empty document has none. -/
def readMapping (text : String) : Option (List (Content × Content)) := do
  let tokens ← Token.scan text
  let items ← Item.ofTokens .empty tokens
  let (handles, root) ← readOnly items
  root.contents? handles

end AliasTaint.Yaml
