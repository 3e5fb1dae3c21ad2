import AliasTaint.Access.Path
import AliasTaint.Error

/-!
# Reading access paths

The text of a path is the text of its elements, one after the other: `.name` for a field, `[key]`
for an index and `[*]` for any index. A field name ends before the next `.` or `[`; an index key
ends at the next `]`.
-/

namespace AliasTaint.Path

/-- Why a text is no access path. -/
inductive Defect where
  | emptyField
  | emptyIndex
  | unterminatedIndex
  | noElement
  deriving DecidableEq

def Defect.reason : Defect → String
  | .emptyField => "empty field name"
  | .emptyIndex => "empty index"
  | .unterminatedIndex => "unterminated index"
  | .noElement => "expected '.' or '[' at start of element"

/-- The characters a field name may consist of. -/
def inFieldName (character : Char) : Bool :=
  character != '.' && character != '['

/-- The characters an index key may consist of. -/
def inIndexKey (character : Char) : Bool :=
  character != ']'

/-- The element that an index key stands for. -/
def indexElement (key : List Char) : PathElement :=
  if key = ['*'] then .anyIndex else .index (String.ofList key)

/-- Reads the elements of a text; the first element that does not fit decides the defect. -/
def parseElements : List Char → Except Defect Path
  | [] => .ok []
  | '.' :: rest =>
      let name := rest.takeWhile inFieldName
      if name.isEmpty then
        .error .emptyField
      else
        (parseElements (rest.dropWhile inFieldName)).map (.field (String.ofList name) :: ·)
  | '[' :: rest =>
      let key := rest.takeWhile inIndexKey
      let closing := rest.dropWhile inIndexKey
      if closing.isEmpty then
        .error .unterminatedIndex
      else if key.isEmpty then
        .error .emptyIndex
      else
        (parseElements (closing.drop 1)).map (indexElement key :: ·)
  | _ => .error .noElement
termination_by text => text.length
decreasing_by
  · have shorter := (List.dropWhile_suffix inFieldName (l := rest)).length_le
    simp only [List.length_cons]
    omega
  · have shorter := (List.dropWhile_suffix inIndexKey (l := rest)).length_le
    simp only [List.length_cons, List.length_drop]
    omega

/-- Reads an access path. The error quotes the whole text. -/
def parse (text : String) : Except Error Path :=
  match parseElements text.toList with
  | .ok path => .ok path
  | .error defect => .error (.invalidPath text defect.reason)

end AliasTaint.Path
