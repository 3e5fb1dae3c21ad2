/-!
# YAML source text

A YAML text is read character by character, and where a character stands matters: indentation is
counted in columns, and some characters mean something only at the start of a line. So each
character is given its place once, before anything else is read.

A line ends with a line feed, a carriage return, both of these, or a next-line character, and all
four read as a line feed. The line and paragraph separators end a line as well, but stay what they
are.
-/

namespace AliasTaint.Yaml

/-! ## Characters -/

/-- The characters that a text may hold. -/
def isAllowed (character : Char) : Bool :=
  let code := character.toNat
  code = 0x9 || code = 0xa || code = 0xd || (0x20 ≤ code && code ≤ 0x7e) || code = 0x85 ||
    (0xa0 ≤ code && code ≤ 0xfffd) || 0x10000 ≤ code

def lineFeed : Char := '\n'

def nextLine : Char := Char.ofNat 0x85

def lineSeparator : Char := Char.ofNat 0x2028

def paragraphSeparator : Char := Char.ofNat 0x2029

def byteOrderMark : Char := Char.ofNat 0xfeff

/-- The characters that end a line, after the different line ends have become line feeds. -/
def isBreak (character : Char) : Bool :=
  character = lineFeed || character = lineSeparator || character = paragraphSeparator

def isBlank (character : Char) : Bool :=
  character = ' ' || character = '\t'

def isDigit (character : Char) : Bool :=
  '0' ≤ character && character ≤ '9'

/-- The characters of the names of anchors, directives and tag handles. -/
def inName (character : Char) : Bool :=
  isDigit character || ('a' ≤ character && character ≤ 'z') ||
    ('A' ≤ character && character ≤ 'Z') || character = '_' || character = '-'

/-- The value of a digit in a base of at most sixteen. -/
def digit? (base : Nat) (character : Char) : Option Nat :=
  let value :=
    if isDigit character then some (character.toNat - '0'.toNat)
    else if 'a' ≤ character && character ≤ 'f' then some (character.toNat - 'a'.toNat + 10)
    else if 'A' ≤ character && character ≤ 'F' then some (character.toNat - 'A'.toNat + 10)
    else none
  value.filter (· < base)

/-- A number by its digits, of which there is at least one. -/
def digits? (base : Nat) (text : List Char) : Option Nat :=
  if text.isEmpty then
    none
  else
    (text.mapM (digit? base)).map fun digits =>
      digits.foldl (fun number digit => number * base + digit) 0

/-! ## Places -/

/-- A character at its place. -/
structure Spot where
  character : Char
  line : Nat
  column : Nat

/-- Gives each character its place, given the place of the first one. -/
def locateFrom (line column : Nat) : List Char → List Spot
  | [] => []
  | '\r' :: '\n' :: rest => ⟨lineFeed, line, column⟩ :: locateFrom (line + 1) 0 rest
  | character :: rest =>
      if character = '\r' || character = nextLine then
        ⟨lineFeed, line, column⟩ :: locateFrom (line + 1) 0 rest
      else if isBreak character then
        ⟨character, line, column⟩ :: locateFrom (line + 1) 0 rest
      else
        ⟨character, line, column⟩ :: locateFrom line (column + 1) rest

/-- The characters of a text at their places, if all of them are allowed. -/
def locate? (text : String) : Option (List Spot) :=
  if text.toList.all isAllowed then some (locateFrom 0 0 text.toList) else none

/-! ## Looking ahead -/

/-- The text goes on with a given character. -/
def startsWith (character : Char) : List Spot → Bool
  | [] => false
  | spot :: _ => spot.character = character

/-- The text goes on with a character of a class. -/
def startsIn (inClass : Char → Bool) : List Spot → Bool
  | [] => false
  | spot :: _ => inClass spot.character

def endsWord : List Spot → Bool
  | [] => true
  | spot :: _ => isBlank spot.character || isBreak spot.character

/-- A line starts with three times a given character and nothing else that belongs to it. -/
def startsMark (character : Char) : List Spot → Bool
  | first :: second :: third :: rest =>
      first.column = 0 && first.character = character && second.character = character &&
        third.character = character && endsWord rest
  | _ => false

/-- A line starts with `---` or `...`, which stand between documents. -/
def startsDocumentMark (spots : List Spot) : Bool :=
  startsMark '-' spots || startsMark '.' spots

/-! ## Reading on -/

/-- The longest beginning in a class of characters, and what follows it. -/
def spanIn (inClass : Char → Bool) (spots : List Spot) : List Char × List Spot :=
  ((spots.takeWhile fun spot => inClass spot.character).map Spot.character,
    spots.dropWhile fun spot => inClass spot.character)

def skipBlanks (spots : List Spot) : List Spot :=
  spots.dropWhile fun spot => isBlank spot.character

/-- Goes to the next line. Only blanks and a comment may be left on this one. -/
def finishLine? (spots : List Spot) : Option (List Spot) :=
  let rest := skipBlanks spots
  let lineEnd :=
    if startsWith '#' rest then rest.dropWhile fun spot => !isBreak spot.character else rest
  match lineEnd with
  | [] => some []
  | spot :: next => if isBreak spot.character then some next else none

end AliasTaint.Yaml
