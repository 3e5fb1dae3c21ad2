import AliasTaint.Sorted.Entries

/-!
# Sorted maps

A finite map from an ordered key type, in the one form that has increasing keys. Its entries are
listed in the order of the keys, and two maps with the same entries are equal.
-/

namespace AliasTaint

/-- A finite map whose entries stand in the order of their keys. -/
structure SortedMap (K A : Type) [Ord K] where
  entries : List (K × A)
  increasing : Entries.Increasing entries

namespace SortedMap

variable {K A B : Type} [Ord K]

theorem ext_entries :
    {left right : SortedMap K A} → left.entries = right.entries → left = right
  | ⟨_, _⟩, ⟨_, _⟩, rfl => rfl

instance [DecidableEq K] [DecidableEq A] : DecidableEq (SortedMap K A) := fun left right =>
  if same : left.entries = right.entries then
    isTrue (ext_entries same)
  else
    isFalse fun equal => same (congrArg entries equal)

/-! ## Reading -/

/-- The value bound to a key. -/
def get? [DecidableEq K] (map : SortedMap K A) (key : K) : Option A :=
  map.entries.lookup key

def keys (map : SortedMap K A) : List K :=
  map.entries.map Prod.fst

def size (map : SortedMap K A) : Nat :=
  map.entries.length

def isEmpty (map : SortedMap K A) : Bool :=
  map.entries.isEmpty

/-! ## Building -/

def empty : SortedMap K A where
  entries := []
  increasing := Entries.increasing_nil

instance : EmptyCollection (SortedMap K A) := ⟨empty⟩

/-- Binds a key, replacing the value it had. -/
def insert [Std.TransOrd K] [Std.LawfulEqOrd K]
    (map : SortedMap K A) (key : K) (value : A) : SortedMap K A where
  entries := Entries.insert key value map.entries
  increasing := map.increasing.insert key value

/-- Unbinds a key. -/
def erase [DecidableEq K] (map : SortedMap K A) (key : K) : SortedMap K A where
  entries := Entries.erase key map.entries
  increasing := map.increasing.erase key

/-- Changes every value, dropping the entries whose new value is `none`. -/
def filterMapValues (map : SortedMap K A) (change : K → A → Option B) : SortedMap K B where
  entries := Entries.filterMapValues change map.entries
  increasing := map.increasing.filterMapValues change

/-- The entries of both maps; a key bound in both gets the combination of its two values. -/
def combine [DecidableEq K] [Std.TransOrd K] [Std.LawfulEqOrd K]
    (both : A → A → A) (left right : SortedMap K A) : SortedMap K A where
  entries := Entries.combine both left.entries right.entries
  increasing := left.increasing.combine right.increasing both

end SortedMap

end AliasTaint
