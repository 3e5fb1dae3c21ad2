import AliasTaint.Yaml.Scalar
import AliasTaint.Yaml.Tag

/-!
# YAML tokens

A token is a scalar, a property of a node, or a mark of structure. Indentation is structure: a
mapping that is not in braces starts where its first key stands and ends with the first token to the
left of it.

What comes before a colon is a key only in hindsight. So a scalar where a key may stand is held
back, with the tokens after it, until it is clear whether a colon follows. It must follow on the
same line, and within 1024 characters.

Sequences are not read, and neither are braces inside braces.
-/

namespace AliasTaint.Yaml

inductive Token where
  | directive (directive : Directive)
  | documentStart
  | documentEnd
  | blockStart
  | blockEnd
  | flowStart
  | flowEnd
  | comma
  | key
  | value
  | anchor (name : String)
  | alias (name : String)
  | tag (tag : TagText)
  | scalar (scalar : Scalar)
  deriving DecidableEq

/-- What may turn out to be a key: where it starts, and the tokens from there on, the last one
first. A key is required where an entry of the surrounding mapping has to start. -/
structure PendingKey where
  line : Nat
  column : Nat
  isRequired : Bool
  tokens : List Token

/-- The greatest number of characters between the start of a key and its colon. -/
def longestKey : Nat := 1024

/-- No colon at this place makes it a key any more. -/
def PendingKey.isStale (spot : Spot) (key : PendingKey) : Bool :=
  key.line < spot.line || key.column + longestKey < spot.column

/-- What is known between two tokens. -/
structure Scan where
  /-- The tokens before the pending key, the last one first. -/
  tokens : List Token
  pending : Option PendingKey
  /-- A key may start here. -/
  keyAllowed : Bool
  /-- The columns of the surrounding mappings, the innermost one first. -/
  columns : List Nat
  inFlow : Bool

namespace Scan

def start : Scan :=
  { tokens := [], pending := none, keyAllowed := true, columns := [], inFlow := false }

def emit (token : Token) (scan : Scan) : Scan :=
  match scan.pending with
  | none => { scan with tokens := token :: scan.tokens }
  | some key => { scan with pending := some { key with tokens := token :: key.tokens } }

def allowKey (isAllowed : Bool) (scan : Scan) : Scan :=
  { scan with keyAllowed := isAllowed }

/-! ## Pending keys -/

/-- Settles that the pending key is none. -/
def dropKey (scan : Scan) : Option Scan :=
  match scan.pending with
  | none => some scan
  | some key =>
      if key.isRequired then
        none
      else
        some { scan with tokens := key.tokens ++ scan.tokens, pending := none }

/-- Drops the pending key if no colon can follow it any more. -/
def dropStaleKey (spot : Spot) (scan : Scan) : Option Scan :=
  match scan.pending with
  | none => some scan
  | some key => if key.isStale spot then scan.dropKey else some scan

/-- Holds back what starts here, if it may be a key. -/
def holdKey (spot : Spot) (scan : Scan) : Option Scan :=
  if scan.keyAllowed then
    scan.dropKey.map fun scan =>
      { scan with
        pending := some
          { line := spot.line
            column := spot.column
            isRequired := !scan.inFlow && scan.columns.head? = some spot.column
            tokens := [] } }
  else
    some scan

/-! ## Indentation -/

/-- A mapping starts at a column that is to the right of the surrounding one. -/
def startsMapping (column : Nat) (scan : Scan) : Bool :=
  !scan.inFlow && scan.columns.head?.all (· < column)

def startMapping (column : Nat) (scan : Scan) : Scan :=
  if scan.startsMapping column then
    { scan.emit .blockStart with columns := column :: scan.columns }
  else
    scan

/-- Ends the mappings at columns that satisfy a condition, the innermost ones first. -/
def endMappings (ends : Nat → Bool) (scan : Scan) : Scan :=
  if scan.inFlow then
    scan
  else
    { (scan.columns.takeWhile ends).foldl (fun scan _ => scan.emit .blockEnd) scan with
      columns := scan.columns.dropWhile ends }

/-- Ends everything that surrounds this place. -/
def endAll (scan : Scan) : Option Scan :=
  (scan.endMappings fun _ => true).dropKey

/-! ## Keys and values -/

/-- Marks an explicit key. -/
def markKey (column : Nat) (scan : Scan) : Option Scan :=
  if scan.inFlow || scan.keyAllowed then
    (scan.startMapping column).dropKey.map fun scan =>
      (scan.emit .key).allowKey !scan.inFlow
  else
    none

/-- Marks a value. What was held back is its key; otherwise the key is explicit or absent. -/
def markValue (column : Nat) (scan : Scan) : Option Scan :=
  match scan.pending with
  | some key =>
      let before := { scan with pending := none }
      let marked := (before.startMapping key.column).emit .key
      some (({ marked with tokens := key.tokens ++ marked.tokens }.emit .value).allowKey false)
  | none =>
      if scan.inFlow || scan.keyAllowed then
        some (((scan.startMapping column).emit .value).allowKey !scan.inFlow)
      else
        none

/-! ## Single tokens -/

/-- A character that starts no plain scalar by itself. -/
def isIndicator (character : Char) : Bool :=
  "-?:,[]\x7b\x7d#&*!|>'\"%@\x60".toList.contains character

/-- A plain scalar starts here. -/
def startsPlain (inFlow : Bool) (character : Char) (rest : List Spot) : Bool :=
  !(isBlank character || isIndicator character) ||
    (character = '-' && !endsWord rest) ||
    (!inFlow && (character = '?' || character = ':') && !endsWord rest)

/-- Adds the token of what was read, if it was. -/
def addRead {α : Type} (token : α → Token) (scan : Scan) (result : Option (α × List Spot)) :
    Option (Scan × List Spot) :=
  result.map fun (content, rest) => (scan.emit (token content), rest)

/-- Adds a token that may be the start of a key, or stand in one. -/
def addHeld {α : Type} (token : α → Token) (spot : Spot) (scan : Scan)
    (result : Option (α × List Spot)) : Option (Scan × List Spot) :=
  (scan.holdKey spot).bind fun scan => (scan.allowKey false).addRead token result

def addBlock (style : Style) (rest : List Spot) (scan : Scan) : Option (Scan × List Spot) :=
  scan.dropKey.bind fun dropped =>
    (dropped.allowKey true).addRead (fun text => .scalar ⟨style, text⟩)
      (readBlock (style = .literal) scan.columns.head? rest)

/-- The least column of the further lines of a plain scalar. -/
def leastColumn (scan : Scan) : Nat :=
  (scan.columns.head?.map (· + 1)).getD 0

def addPlain (spot : Spot) (rest : List Spot) (scan : Scan) : Option (Scan × List Spot) :=
  (scan.holdKey spot).bind fun held =>
    (readPlain scan.inFlow scan.leastColumn [] .empty (spot :: rest)).map
      fun (text, beforeBreak, left) =>
        ((held.emit (.scalar ⟨.plain, text⟩)).allowKey beforeBreak, left)

/-- Adds a token at the start of a line that stands outside of all mappings. -/
def addOutside {α : Type} (token : α → Token) (scan : Scan)
    (result : Option (α × List Spot)) : Option (Scan × List Spot) :=
  scan.endAll.bind fun scan => (scan.allowKey false).addRead token result

def openFlow (scan : Scan) : Option Scan :=
  if scan.inFlow then
    none
  else
    scan.dropKey.map fun scan => { (scan.emit .flowStart).allowKey true with inFlow := true }

def closeFlow (scan : Scan) : Option Scan :=
  if scan.inFlow then
    scan.dropKey.map fun scan => { (scan.emit .flowEnd).allowKey false with inFlow := false }
  else
    none

def addComma (scan : Scan) : Option Scan :=
  if scan.inFlow then
    scan.dropKey.map fun scan => (scan.emit .comma).allowKey true
  else
    none

/-- Reads the token that starts here. -/
def readToken (spot : Spot) (rest : List Spot) (scan : Scan) : Option (Scan × List Spot) :=
  let character := spot.character
  let isMarkHere := scan.inFlow || endsWord rest
  let step (next : Option Scan) : Option (Scan × List Spot) := next.map fun scan => (scan, rest)
  if character = '%' && spot.column = 0 then
    scan.addOutside .directive (readDirective rest)
  else if startsMark '-' (spot :: rest) then
    scan.addOutside (fun () => .documentStart) (some ((), rest.drop 2))
  else if startsMark '.' (spot :: rest) then
    scan.addOutside (fun () => .documentEnd) (some ((), rest.drop 2))
  else if character = '\x7b' then
    step scan.openFlow
  else if character = '\x7d' then
    step scan.closeFlow
  else if character = ',' then
    step scan.addComma
  else if character = '?' && isMarkHere then
    step (scan.markKey spot.column)
  else if character = ':' && isMarkHere then
    step (scan.markValue spot.column)
  else if character = '*' then
    scan.addHeld .alias spot (readAnchor rest)
  else if character = '&' then
    scan.addHeld .anchor spot (readAnchor rest)
  else if character = '!' then
    scan.addHeld .tag spot (readTag scan.inFlow rest)
  else if character = '|' && !scan.inFlow then
    scan.addBlock .literal rest
  else if character = '>' && !scan.inFlow then
    scan.addBlock .folded rest
  else if character = '\'' then
    scan.addHeld (fun text => .scalar ⟨.quoted, text⟩) spot (readSingleQuoted [] .empty false rest)
  else if character = '"' then
    scan.addHeld (fun text => .scalar ⟨.quoted, text⟩) spot
      (readDoubleQuoted [] .empty .outside rest)
  else if startsPlain scan.inFlow character rest then
    scan.addPlain spot rest
  else
    none

/-! ## All tokens -/

/-- Skips blanks, comments and line ends, and says whether a key may start after them. In front of a
key only spaces count as blanks. -/
def skipToToken (inFlow keyAllowed inComment : Bool) : List Spot → Bool × List Spot
  | [] => (keyAllowed, [])
  | spot :: rest =>
      let character := spot.character
      if isBreak character then
        skipToToken inFlow (keyAllowed || !inFlow) false rest
      else if inComment || character = '#' then
        skipToToken inFlow keyAllowed true rest
      else if character = ' ' || (character = '\t' && (inFlow || !keyAllowed)) ||
          (character = byteOrderMark && spot.column = 0) then
        skipToToken inFlow keyAllowed false rest
      else
        (keyAllowed, spot :: rest)

/-- Reads the tokens up to the end of the text. Each one takes a character or more, so the number
of characters bounds their number. -/
def readTokens : Nat → List Spot → Scan → Option (List Token)
  | 0, _, _ => none
  | bound + 1, spots, scan =>
      let (keyAllowed, ahead) := skipToToken scan.inFlow scan.keyAllowed false spots
      match ahead with
      | [] => scan.endAll.map fun scan => scan.tokens.reverse
      | spot :: rest => do
          let current ← (scan.allowKey keyAllowed).dropStaleKey spot
          let (next, left) ← (current.endMappings (spot.column < ·)).readToken spot rest
          readTokens bound left next

end Scan

/-- The tokens of a text. -/
def Token.scan (text : String) : Option (List Token) := do
  let spots ← locate? text
  Scan.readTokens (spots.length + 1) spots .start

end AliasTaint.Yaml
