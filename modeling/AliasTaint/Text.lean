/-!
# Text forms

Values have two texts. The *rendered* text is the short form for reports. The *inspected* text is
the constructor form: the name of the constructor with every part written out, strings quoted.
-/

namespace AliasTaint

/-- Values with a short text for reports. -/
class Render (α : Type) where
  render : α → String

/-- Values with a constructor form. -/
class Inspect (α : Type) where
  inspect : α → String

export Render (render)
export Inspect (inspect)

instance : Render String := ⟨id⟩

namespace Text

/-- The symbol of a value that stands for nothing at all. -/
def bottomSymbol : String := "_|_"

/-- The symbol of a value that stands for everything. -/
def topSymbol : String := "T"

/-! ## Lists, records and maps -/

def commaSeparated (items : List String) : String :=
  ", ".intercalate items

def bracketed (items : List String) : String :=
  "[" ++ commaSeparated items ++ "]"

def braced (items : List String) : String :=
  "\x7b" ++ commaSeparated items ++ "\x7d"

/-- A constructor with one part. -/
def application (constructor argument : String) : String :=
  constructor ++ "(" ++ argument ++ ")"

/-- A constructor with named parts. -/
def record (constructor : String) (fields : List (String × String)) : String :=
  constructor ++ " \x7b " ++
    commaSeparated (fields.map fun field => field.1 ++ ": " ++ field.2) ++ " \x7d"

/-- A map with its keys before its values. -/
def mapping (entries : List (String × String)) : String :=
  braced (entries.map fun entry => entry.1 ++ ": " ++ entry.2)

/-- A map written with arrows. -/
def arrows (entries : List (String × String)) : String :=
  braced (entries.map fun entry => entry.1 ++ " -> " ++ entry.2)

/-! ## Quoted strings -/

/-- A control character is written by its code point. -/
def isControl (character : Char) : Bool :=
  character.toNat < 32 || character.toNat = 127

/-- How a character stands between quotes. -/
def escaped (character : Char) : String :=
  if character = '"' then "\\\""
  else if character = '\\' then "\\\\"
  else if character = '\n' then "\\n"
  else if character = '\t' then "\\t"
  else if character = '\r' then "\\r"
  else if character.toNat = 0 then "\\0"
  else if isControl character then
    "\\u\x7b" ++ String.ofList (Nat.toDigits 16 character.toNat) ++ "\x7d"
  else character.toString

def quoted (text : String) : String :=
  "\"" ++ String.join (text.toList.map escaped) ++ "\""

end Text

instance : Inspect String := ⟨Text.quoted⟩

instance : Render UInt32 := ⟨fun number => Nat.repr number.toNat⟩

instance : Inspect UInt32 := ⟨fun number => Nat.repr number.toNat⟩

instance : Inspect UInt64 := ⟨fun number => Nat.repr number.toNat⟩

end AliasTaint
