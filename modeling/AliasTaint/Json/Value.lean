/-!
# JSON values

JSON as data, and the shapes in which records and alternatives are written. A record is an object
with a member for each field, or an array of exactly its fields. An alternative without content is
its name, or an object that maps the name to null; one with content is an object that maps its name
to the content.
-/

namespace AliasTaint

/-- A JSON value. -/
inductive Json where
  | null
  | bool (value : Bool)
  /-- The number `mantissa * 10 ^ -decimals`; it is an integer only if no decimals are written. -/
  | number (mantissa : Int) (decimals : Nat)
  | string (text : String)
  | array (items : List Json)
  | object (members : List (String × Json))
  deriving Inhabited

/-- Types with a JSON form. -/
class JsonForm (α : Type) where
  encode : α → Json
  decode? : Json → Option α

export JsonForm (encode decode?)

namespace Json

/-! ## Building values -/

def int (value : Int) : Json :=
  .number value 0

def nat (value : Nat) : Json :=
  .int value

/-- An alternative with content. -/
def tagged (name : String) (content : Json) : Json :=
  .object [(name, content)]

/-! ## Taking values apart -/

def nat? : Json → Option Nat
  | .number (.ofNat value) 0 => some value
  | _ => none

def string? : Json → Option String
  | .string text => some text
  | _ => none

def array? : Json → Option (List Json)
  | .array items => some items
  | _ => none

/-- The member of an object. -/
def member? (name : String) : Json → Option Json
  | .object members => members.lookup name
  | _ => none

/-- The members of an object, in the order of their names. Members of other names do not matter. -/
def members? (names : List String) : Json → Option (List Json)
  | .object members => names.mapM fun name => members.lookup name
  | _ => none

/-- The fields of a record, in the order of their names. -/
def fields? (names : List String) : Json → Option (List Json)
  | .array items => if items.length = names.length then some items else none
  | json => json.members? names

/-- The name of an alternative without content. -/
def bareName? : Json → Option String
  | .string name => some name
  | .object [(name, .null)] => some name
  | _ => none

/-- The value that an alternative without content stands for. -/
def bare? {α : Type} (name : String) (value : α) (json : Json) : Option α :=
  if json.bareName? = some name then some value else none

/-- The content of an alternative. -/
def content? (name : String) : Json → Option Json
  | .object [(found, content)] => if found = name then some content else none
  | _ => none

/-! ## Reading records field by field -/

section Records

variable {α β : Type}

/-- Reads the next field, and goes on with the fields that are left. -/
def field? (read : Json → Option α) (next : α → List Json → Option β) : List Json → Option β
  | [] => none
  | part :: rest => (read part).bind fun value => next value rest

/-- The record, if no field is left. -/
def record? (value : α) : List Json → Option α
  | [] => some value
  | _ :: _ => none

end Records

end Json

/-! ## Forms of basic types -/

instance : JsonForm String where
  encode := .string
  decode? := Json.string?

instance : JsonForm UInt32 where
  encode value := .nat value.toNat
  decode? json := json.nat?.bind fun value =>
    if value < UInt32.size then some value.toUInt32 else none

instance : JsonForm UInt64 where
  encode value := .nat value.toNat
  decode? json := json.nat?.bind fun value =>
    if value < UInt64.size then some value.toUInt64 else none

namespace JsonForm

variable {α : Type} [JsonForm α]

/-- A list is written as an array. -/
def encodeList (items : List α) : Json :=
  .array (items.map encode)

def decodeList? (json : Json) : Option (List α) :=
  json.array?.bind fun items => items.mapM decode?

end JsonForm

end AliasTaint
