import AliasTaint.Access.Path
import AliasTaint.Sorted.Map
import AliasTaint.Sorted.Set

/-!
# Memory locations

A memory location is a root (a parameter, a local, an allocation site) together with an access path
from it. Roots have names, and a table numbers the names in the order in which they are first
mentioned.
-/

namespace AliasTaint

/-! ## Roots -/

/-- The number of a root. -/
structure RootId where
  number : UInt32
  deriving DecidableEq

namespace RootId

instance : Ord RootId :=
  ⟨compareOn number⟩

instance : Std.TransOrd RootId :=
  inferInstanceAs (Std.TransCmp (compareOn number))

instance : Std.LawfulEqOrd RootId where
  eq_of_compare {left right} same := by
    have numberEq : left.number = right.number := Std.LawfulEqOrd.eq_of_compare same
    cases left
    cases right
    simp_all

instance : Render RootId where
  render root := "#" ++ render root.number

instance : Inspect RootId where
  inspect root := Text.application "RootId" (inspect root.number)

end RootId

/-- The roots mentioned so far: their names in the order of first mention, and the number of each
name. -/
structure RootTable where
  names : List String
  numbers : SortedMap String RootId
  deriving DecidableEq

namespace RootTable

def empty : RootTable where
  names := []
  numbers := ∅

/-- The number of a name that was mentioned before. -/
def get? (table : RootTable) (name : String) : Option RootId :=
  table.numbers.get? name

/-- The name with a number. -/
def name? (table : RootTable) (root : RootId) : Option String :=
  table.names[root.number.toNat]?

/-- The number of a name. A new name is added at the end of the names, and its number is how many
there were before. -/
def intern (table : RootTable) (name : String) : RootId × RootTable :=
  match table.get? name with
  | some root => (root, table)
  | none =>
      let root : RootId := ⟨table.names.length.toUInt32⟩
      (root, ⟨table.names ++ [name], table.numbers.insert name root⟩)

/-- The table after mentioning some names in order. -/
def internAll (table : RootTable) (names : List String) : RootTable :=
  names.foldl (fun current name => (current.intern name).2) table

/-- A root by its name, or by its number if the table has no name for it. -/
def renderRoot (table : RootTable) (root : RootId) : String :=
  (table.name? root).getD (render root)

end RootTable

/-! ## Locations -/

/-- A root and an access path from it. -/
structure Location where
  root : RootId
  path : Path
  deriving DecidableEq

namespace Location

instance : Ord Location :=
  ⟨compareLex (compareOn root) (compareOn path)⟩

instance : Std.TransOrd Location :=
  inferInstanceAs (Std.TransCmp (compareLex (compareOn root) (compareOn path)))

instance : Std.LawfulEqOrd Location where
  eq_of_compare {left right} same := by
    have parts := compareLex_eq_eq.mp same
    have rootEq : left.root = right.root := Std.LawfulEqOrd.eq_of_compare parts.1
    have pathEq : left.path = right.path := Std.LawfulEqOrd.eq_of_compare parts.2
    cases left
    cases right
    simp_all

/-- The root itself. -/
def ofRoot (root : RootId) : Location :=
  ⟨root, []⟩

/-- The part of a location that one more element leads to. -/
def child (location : Location) (element : PathElement) : Location :=
  ⟨location.root, location.path ++ [element]⟩

/-- The part of a location that a further path leads to. -/
def extend (location : Location) (path : Path) : Location :=
  ⟨location.root, location.path ++ path⟩

instance : Render Location where
  render location := render location.root ++ render location.path

/-- A location with its root shown by name. -/
def renderWith (location : Location) (table : RootTable) : String :=
  table.renderRoot location.root ++ render location.path

instance : Inspect Location where
  inspect location :=
    Text.record "MemoryLocation"
      [("root", inspect location.root), ("path", inspect location.path)]

end Location

/-- The location of the root with a name. -/
def RootTable.location (table : RootTable) (name : String) : Location × RootTable :=
  let (root, next) := table.intern name
  (.ofRoot root, next)

/-! ## Sets of locations -/

/-- The locations that an expression may denote. -/
abbrev LocationSet := SortedSet Location

/-- The location of a set that has exactly one. -/
def LocationSet.single? (locations : LocationSet) : Option Location :=
  match locations.toList with
  | [location] => some location
  | _ => none

end AliasTaint
