import AliasTaint.Yaml.Source

/-!
# Anchors, tags and directives of YAML

An anchor names a node, and an alias stands for the node with a name. A tag gives a node a type; it
is written in full, or as a handle and a suffix. Directives stand before a document: one gives the
version of the language, others say what handles stand for.
-/

namespace AliasTaint.Yaml

/-- A tag as it is written. A tag in full has no handle. -/
structure TagText where
  handle : String
  suffix : String
  deriving DecidableEq

/-- A line before a document. -/
inductive Directive where
  | version (major minor : Nat)
  | handle (handle expansion : String)
  deriving DecidableEq

/-! ## Names -/

/-- The name of an anchor or alias. It ends with a blank or with an indicator. -/
def readAnchor (spots : List Spot) : Option (String × List Spot) :=
  let (name, rest) := spanIn inName spots
  if name.isEmpty then
    none
  else if endsWord rest || startsIn (fun next => "?:,]\x7d%@\x60".toList.contains next) rest then
    some (String.ofList name, rest)
  else
    none

/-! ## Identifiers -/

/-- The characters of a tag. Some indicators belong to it only where its end is marked. -/
def inIdentifier (isMarked : Bool) (character : Char) : Bool :=
  inName character || ";/?:@&=+$.!~*'()".toList.contains character ||
    (isMarked && ",[]".toList.contains character)

/-- How many octets of a character must still follow, after one more octet. -/
def octetsAfter? (missing octet : Nat) : Option Nat :=
  if missing = 0 then
    if octet < 0x80 then some 0
    else if 0xc0 ≤ octet && octet < 0xe0 then some 1
    else if 0xe0 ≤ octet && octet < 0xf0 then some 2
    else if 0xf0 ≤ octet && octet < 0xf8 then some 3
    else none
  else if 0x80 ≤ octet && octet < 0xc0 then
    some (missing - 1)
  else
    none

/-- Reads an identifier. Octets may be written as a percent sign and two digits; octets that belong
to one character must all be written so. -/
def readIdentifier (isMarked : Bool) (missing : Nat) :
    List Spot → Option (List Char × List Spot)
  | [] => if missing = 0 then some ([], []) else none
  | spot :: rest =>
      if spot.character = '%' then
        match rest with
        | high :: low :: further =>
            match digits? 16 [high.character, low.character] with
            | none => none
            | some octet =>
                match octetsAfter? missing octet with
                | none => none
                | some stillMissing =>
                    (readIdentifier isMarked stillMissing further).map fun (text, left) =>
                      (Char.ofNat octet :: text, left)
        | _ => none
      else if missing ≠ 0 then
        none
      else if inIdentifier isMarked spot.character then
        (readIdentifier isMarked 0 rest).map fun (text, left) => (spot.character :: text, left)
      else
        some ([], spot :: rest)

/-- What an identifier stands for. A null octet ends it, and what is written after that does not
count. -/
def identifierText (written : List Char) : String :=
  String.ofList (written.takeWhile (· ≠ Char.ofNat 0))

/-- Reads an identifier of which something is written, even if it stands for nothing. -/
def readNonemptyIdentifier (isMarked : Bool) (spots : List Spot) :
    Option (String × List Spot) := do
  let (written, rest) ← readIdentifier isMarked 0 spots
  if written.isEmpty then none else some (identifierText written, rest)

/-! ## Tags -/

/-- Reads a tag after its exclamation mark: in full between angle brackets, with a named handle, or
with the plain handle. A plain handle with a suffix that stands for nothing is a tag in full. -/
def readTagText (spots : List Spot) : Option (TagText × List Spot) :=
  if startsWith '<' spots then do
    let (text, rest) ← readNonemptyIdentifier true (spots.drop 1)
    if startsWith '>' rest then some (⟨"", text⟩, rest.drop 1) else none
  else
    let (name, rest) := spanIn inName spots
    if startsWith '!' rest then do
      let (suffix, left) ← readNonemptyIdentifier false (rest.drop 1)
      some (⟨"!" ++ String.ofList name ++ "!", suffix⟩, left)
    else do
      let (more, left) ← readIdentifier false 0 rest
      let suffix := identifierText (name ++ more)
      some (if suffix.isEmpty then ⟨"", "!"⟩ else ⟨"!", suffix⟩, left)

/-- Reads a tag. It ends with a blank, or with a comma inside a flow mapping. -/
def readTag (inFlow : Bool) (spots : List Spot) : Option (TagText × List Spot) := do
  let (tag, rest) ← readTagText spots
  if endsWord rest || (inFlow && startsWith ',' rest) then some (tag, rest) else none

/-! ## Directives -/

/-- A part of a version number, of at most nine digits. -/
def readVersionPart (spots : List Spot) : Option (Nat × List Spot) :=
  let (digits, rest) := spanIn isDigit spots
  if digits.length ≤ 9 then (digits? 10 digits).map fun number => (number, rest) else none

def readVersion (spots : List Spot) : Option (Directive × List Spot) := do
  let (major, rest) ← readVersionPart (skipBlanks spots)
  if startsWith '.' rest then do
    let (minor, left) ← readVersionPart (rest.drop 1)
    some (.version major minor, left)
  else
    none

/-- A handle is an exclamation mark, or a name between two of them. -/
def readHandle (spots : List Spot) : Option (String × List Spot) :=
  if startsWith '!' spots then
    let (name, rest) := spanIn inName (spots.drop 1)
    if startsWith '!' rest then some ("!" ++ String.ofList name ++ "!", rest.drop 1)
    else if name.isEmpty then some ("!", rest)
    else none
  else
    none

def readHandleExpansion (spots : List Spot) : Option (Directive × List Spot) := do
  let (handle, rest) ← readHandle (skipBlanks spots)
  if startsIn isBlank rest then do
    let (expansion, left) ← readNonemptyIdentifier true (skipBlanks rest)
    if endsWord left then some (.handle handle expansion, left) else none
  else
    none

/-- Reads a directive after its percent sign, to the end of its line. -/
def readDirective (spots : List Spot) : Option (Directive × List Spot) := do
  let (name, rest) := spanIn inName spots
  if endsWord rest then do
    let (directive, left) ← match String.ofList name with
      | "YAML" => readVersion rest
      | "TAG" => readHandleExpansion rest
      | _ => none
    (finishLine? left).map fun next => (directive, next)
  else
    none

end AliasTaint.Yaml
