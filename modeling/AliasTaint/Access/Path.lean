import AliasTaint.Text

/-!
# Access paths

An access path leads from an object to a part of it: through named fields, through known indices,
or through any index at all. Paths are ordered element by element, and a proper beginning of a path
comes before the path.
-/

namespace AliasTaint

/-- One step of an access path. -/
inductive PathElement where
  | field (name : String)
  | index (key : String)
  | anyIndex
  deriving DecidableEq

namespace PathElement

/-- Fields come before indices, and the unknown index comes last. -/
def rank : PathElement → Nat
  | .field _ => 0
  | .index _ => 1
  | .anyIndex => 2

/-- The name or key of an element, empty for the unknown index. -/
def label : PathElement → String
  | .field name => name
  | .index key => key
  | .anyIndex => ""

/-- Elements are compared by kind and then by name or key. -/
instance : Ord PathElement :=
  ⟨compareLex (compareOn rank) (compareOn label)⟩

instance : Std.TransOrd PathElement :=
  inferInstanceAs (Std.TransCmp (compareLex (compareOn rank) (compareOn label)))

instance : Std.LawfulEqOrd PathElement where
  eq_of_compare {left right} same := by
    have parts := compareLex_eq_eq.mp same
    have rankEq : left.rank = right.rank := Std.LawfulEqOrd.eq_of_compare parts.1
    have labelEq : left.label = right.label := Std.LawfulEqOrd.eq_of_compare parts.2
    cases left <;> cases right <;> simp_all [rank, label]

def isField : PathElement → Bool
  | .field _ => true
  | _ => false

def isIndex (element : PathElement) : Bool :=
  !element.isField

instance : Render PathElement where
  render
    | .field name => "." ++ name
    | .index key => "[" ++ key ++ "]"
    | .anyIndex => "[*]"

instance : Inspect PathElement where
  inspect
    | .field name => Text.application "Field" (inspect name)
    | .index key => Text.application "Index" (inspect key)
    | .anyIndex => "AnyIndex"

end PathElement

/-- An access path, from the object outwards. -/
abbrev Path := List PathElement

namespace Path

def appendField (path : Path) (name : String) : Path :=
  path ++ [.field name]

def appendIndex (path : Path) (key : String) : Path :=
  path ++ [.index key]

/-- The last element and the path before it. -/
def popBack? (path : Path) : Option (PathElement × Path) :=
  path.getLast?.map fun element => (element, path.dropLast)

instance : Render Path where
  render path := path.foldr (fun element text => render element ++ text) ""

instance : Inspect Path where
  inspect path := Text.record "Path" [("elements", Text.bracketed (path.map inspect))]

end Path

end AliasTaint
