import AliasTaint.Yaml.Source

/-!
# YAML scalars

A scalar is a piece of text. It is written plainly, between quotes, or as a block of lines below an
indicator. In a plain or quoted scalar a single line end counts as a space and further ones as line
ends; blanks around line ends do not count. A literal block keeps its line ends, a folded one joins
its lines.

The readers below gather text backwards. Those of quoted scalars and of blocks start after the first
character, which says what follows.
-/

namespace AliasTaint.Yaml

/-- How a scalar is written. -/
inductive Style where
  | plain
  | quoted
  | literal
  | folded
  deriving DecidableEq

/-- A piece of text and how it is written. -/
structure Scalar where
  style : Style
  text : String
  deriving DecidableEq

/-! ## Gaps between words -/

/-- What stands between two words of a scalar. -/
inductive Gap where
  /-- Blanks within a line, the last one first. -/
  | blanks (backwards : List Char)
  /-- Line ends: the first one, which is absent if it is escaped, and the others, the last one
  first. -/
  | breaks (first : Option Char) (backwards : List Char)

namespace Gap

def empty : Gap := .blanks []

def isEmpty : Gap → Bool
  | .blanks backwards => backwards.isEmpty
  | .breaks _ _ => false

def crossesLine : Gap → Bool
  | .blanks _ => false
  | .breaks _ _ => true

def addBlank (blank : Char) : Gap → Gap
  | .blanks backwards => .blanks (blank :: backwards)
  | gap => gap

def addBreak (lineEnd : Char) : Gap → Gap
  | .blanks _ => .breaks (some lineEnd) []
  | .breaks first backwards => .breaks first (lineEnd :: backwards)

/-- The text that a gap stands for, backwards. -/
def folded : Gap → List Char
  | .blanks backwards => backwards
  | .breaks first backwards =>
      if first = some lineFeed then
        if backwards.isEmpty then [' '] else backwards
      else
        backwards ++ first.toList

end Gap

/-! ## Plain scalars -/

/-- A colon followed by an indicator of flow collections, which no plain scalar may hold there. -/
def isStrayColon (inFlow : Bool) (character : Char) (rest : List Spot) : Bool :=
  inFlow && character = ':' && startsIn (fun next => ",?[]\x7b\x7d".toList.contains next) rest

/-- A character that ends a plain scalar: a colon before a blank, or an indicator of flow
collections inside one. -/
def endsPlain (inFlow : Bool) (character : Char) (rest : List Spot) : Bool :=
  (character = ':' && endsWord rest) || (inFlow && ",[]\x7b\x7d".toList.contains character)

/-- What is never the start of a further word of a plain scalar: a comment, a mark between
documents, and a word that is indented too little. -/
def endsPlainLine (inFlow : Bool) (least : Nat) (spot : Spot) (rest : List Spot) : Bool :=
  (!inFlow && spot.column < least) || startsDocumentMark (spot :: rest) || spot.character = '#'

/-- Reads on in a plain scalar whose further lines are indented by `least` columns. The second part
of the result says whether the scalar is followed by a line end. -/
def readPlain (inFlow : Bool) (least : Nat) (text : List Char) (gap : Gap) :
    List Spot → Option (String × Bool × List Spot)
  | [] => some (String.ofList text.reverse, gap.crossesLine, [])
  | spot :: rest =>
      let character := spot.character
      if isBlank character then
        if gap.crossesLine && spot.column < least && character = '\t' then
          none
        else
          readPlain inFlow least text (gap.addBlank character) rest
      else if isBreak character then
        readPlain inFlow least text (gap.addBreak character) rest
      else if !gap.isEmpty && endsPlainLine inFlow least spot rest then
        some (String.ofList text.reverse, gap.crossesLine, spot :: rest)
      else if isStrayColon inFlow character rest then
        none
      else if endsPlain inFlow character rest then
        some (String.ofList text.reverse, gap.crossesLine, spot :: rest)
      else
        readPlain inFlow least (character :: (gap.folded ++ text)) .empty rest

/-! ## Quoted scalars -/

/-- Reads on between single quotes. A single quote is written twice; `afterQuote` says that one was
read just now. -/
def readSingleQuoted (text : List Char) (gap : Gap) (afterQuote : Bool) :
    List Spot → Option (String × List Spot)
  | [] => if afterQuote then some (String.ofList text.reverse, []) else none
  | spot :: rest =>
      let character := spot.character
      if afterQuote then
        if character = '\'' then
          readSingleQuoted ('\'' :: text) .empty false rest
        else
          some (String.ofList text.reverse, spot :: rest)
      else if isBlank character then
        readSingleQuoted text (gap.addBlank character) false rest
      else if isBreak character then
        readSingleQuoted text (gap.addBreak character) false rest
      else if startsDocumentMark (spot :: rest) then
        none
      else if character = '\'' then
        readSingleQuoted (gap.folded ++ text) .empty true rest
      else
        readSingleQuoted (character :: (gap.folded ++ text)) .empty false rest

/-- What a character after a backslash stands for. -/
inductive Escape where
  | character (meaning : Char)
  /-- A code point in so many hexadecimal digits. -/
  | codePoint (length : Nat)

def escape? : Char → Option Escape
  | '0' => some (.character (Char.ofNat 0x0))
  | 'a' => some (.character (Char.ofNat 0x7))
  | 'b' => some (.character (Char.ofNat 0x8))
  | 't' | '\t' => some (.character '\t')
  | 'n' => some (.character '\n')
  | 'v' => some (.character (Char.ofNat 0xb))
  | 'f' => some (.character (Char.ofNat 0xc))
  | 'r' => some (.character '\r')
  | 'e' => some (.character (Char.ofNat 0x1b))
  | ' ' => some (.character ' ')
  | '"' => some (.character '"')
  | '/' => some (.character '/')
  | '\\' => some (.character '\\')
  | 'N' => some (.character nextLine)
  | '_' => some (.character (Char.ofNat 0xa0))
  | 'L' => some (.character lineSeparator)
  | 'P' => some (.character paragraphSeparator)
  | 'x' => some (.codePoint 2)
  | 'u' => some (.codePoint 4)
  | 'U' => some (.codePoint 8)
  | _ => none

/-- The character with a code point, if there is one. -/
def character? (code : Nat) : Option Char :=
  if code.isValidChar then some (Char.ofNat code) else none

/-- Where a reader is in an escape sequence. -/
inductive Escaping where
  | outside
  | afterBackslash
  /-- Some more digits are expected, given the value of those before. -/
  | inCodePoint (missing value : Nat)

/-- Reads on between double quotes. -/
def readDoubleQuoted (text : List Char) (gap : Gap) (escaping : Escaping) :
    List Spot → Option (String × List Spot)
  | [] => none
  | spot :: rest =>
      let character := spot.character
      match escaping with
      | .inCodePoint missing value =>
          match digit? 16 character with
          | none => none
          | some digit =>
              if missing ≤ 1 then
                match character? (value * 16 + digit) with
                | none => none
                | some meaning => readDoubleQuoted (meaning :: text) .empty .outside rest
              else
                readDoubleQuoted text .empty (.inCodePoint (missing - 1) (value * 16 + digit)) rest
      | .afterBackslash =>
          if isBreak character then
            readDoubleQuoted text (.breaks none []) .outside rest
          else
            match escape? character with
            | none => none
            | some (.character meaning) =>
                readDoubleQuoted (meaning :: text) .empty .outside rest
            | some (.codePoint length) =>
                readDoubleQuoted text .empty (.inCodePoint length 0) rest
      | .outside =>
          if isBlank character then
            readDoubleQuoted text (gap.addBlank character) .outside rest
          else if isBreak character then
            readDoubleQuoted text (gap.addBreak character) .outside rest
          else if startsDocumentMark (spot :: rest) then
            none
          else if character = '"' then
            some (String.ofList (gap.folded ++ text).reverse, rest)
          else if character = '\\' then
            readDoubleQuoted (gap.folded ++ text) .empty .afterBackslash rest
          else
            readDoubleQuoted (character :: (gap.folded ++ text)) .empty .outside rest

/-! ## Block scalars -/

/-- What becomes of the line ends after the last line of a block. -/
inductive Chomping where
  | strip
  | clip
  | keep
  deriving DecidableEq

/-- How the lines of a block are read. -/
structure BlockForm where
  isLiteral : Bool
  chomping : Chomping
  indent : Nat

/-- What was read of a block so far, backwards. -/
structure BlockText where
  text : List Char
  /-- The end of the last line. -/
  lineEnd : Option Char
  /-- The ends of empty lines after it. -/
  emptyLines : List Char
  /-- The last line starts with a blank. -/
  startsBlank : Bool

/-- The text before a further line. The end of the last line becomes a space or nothing if the
lines are joined, which they are not next to a line that starts with a blank. -/
def BlockText.beforeLine (block : BlockText) (isLiteral startsBlank : Bool) : List Char :=
  let joins := !isLiteral && block.lineEnd = some lineFeed && !block.startsBlank && !startsBlank
  let lineEnd :=
    if joins then (if block.emptyLines.isEmpty then [' '] else []) else block.lineEnd.toList
  block.emptyLines ++ lineEnd ++ block.text

/-- The whole text. -/
def BlockText.finish (block : BlockText) (chomping : Chomping) : String :=
  let lineEnd := if chomping = .strip then [] else block.lineEnd.toList
  let emptyLines := if chomping = .keep then block.emptyLines else []
  String.ofList (emptyLines ++ lineEnd ++ block.text).reverse

/-- Reads the lines of a block, up to the first one that is indented too little. -/
def readBlockLines (form : BlockForm) (block : BlockText) (inLine : Bool) :
    List Spot → Option (String × List Spot)
  | [] => some (block.finish form.chomping, [])
  | spot :: rest =>
      let character := spot.character
      if inLine then
        if isBreak character then
          readBlockLines form { block with lineEnd := some character } false rest
        else
          readBlockLines form { block with text := character :: block.text } true rest
      else if character = ' ' && spot.column < form.indent then
        readBlockLines form block false rest
      else if character = '\t' && spot.column < form.indent then
        none
      else if isBreak character then
        readBlockLines form { block with emptyLines := character :: block.emptyLines } false rest
      else if spot.column = form.indent then
        let startsBlank := isBlank character
        readBlockLines form
          { text := character :: block.beforeLine form.isLiteral startsBlank
            lineEnd := none
            emptyLines := []
            startsBlank := startsBlank }
          true rest
      else
        some (block.finish form.chomping, spot :: rest)

/-- The empty lines in front of a block whose indentation is not given: their ends, backwards, and
the greatest indentation up to the first line that is not empty. -/
def readBlockStart (deepest : Nat) (emptyLines : List Char) :
    List Spot → Option (Nat × List Char × List Spot)
  | [] => some (deepest, emptyLines, [])
  | spot :: rest =>
      if spot.character = ' ' then
        readBlockStart (max deepest (spot.column + 1)) emptyLines rest
      else if spot.character = '\t' then
        none
      else if isBreak spot.character then
        readBlockStart deepest (spot.character :: emptyLines) rest
      else
        some (deepest, emptyLines, spot :: rest)

def readChomping (spots : List Spot) : Chomping × List Spot :=
  if startsWith '+' spots then (.keep, spots.drop 1)
  else if startsWith '-' spots then (.strip, spots.drop 1)
  else (.clip, spots)

/-- The indentation that is given for a block, relative to what surrounds it. It is not zero. -/
def readIncrement? : List Spot → Option (Option Nat × List Spot)
  | [] => some (none, [])
  | spot :: rest =>
      match digit? 10 spot.character with
      | none => some (none, spot :: rest)
      | some 0 => none
      | some increment => some (some increment, rest)

/-- Reads the indicators of a block, in either order. -/
def readIndicators? (spots : List Spot) : Option (Chomping × Option Nat × List Spot) :=
  if startsIn isDigit spots then do
    let (increment, rest) ← readIncrement? spots
    let (chomping, rest) := readChomping rest
    some (chomping, increment, rest)
  else do
    let (chomping, rest) := readChomping spots
    let (increment, rest) ← if chomping = .clip then some (none, rest) else readIncrement? rest
    some (chomping, increment, rest)

/-- Reads a block scalar inside a mapping at a given column, if there is one. -/
def readBlock (isLiteral : Bool) (parent : Option Nat) (spots : List Spot) :
    Option (String × List Spot) := do
  let (chomping, increment, rest) ← readIndicators? spots
  let body ← finishLine? rest
  let start (emptyLines : List Char) : BlockText :=
    { text := [], lineEnd := none, emptyLines := emptyLines, startsBlank := false }
  match increment with
  | some increment =>
      readBlockLines ⟨isLiteral, chomping, parent.getD 0 + increment⟩ (start []) false body
  | none =>
      let (deepest, emptyLines, lines) ← readBlockStart 0 [] body
      let least := (parent.map (· + 1)).getD 1
      readBlockLines ⟨isLiteral, chomping, max deepest least⟩ (start emptyLines) false lines

end AliasTaint.Yaml
