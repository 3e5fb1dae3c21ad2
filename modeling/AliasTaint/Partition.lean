import AliasTaint.Domain
import AliasTaint.Sorted.Map
import AliasTaint.Text

/-!
# Sparse partitions

A partition assigns a value of a domain to every key. Only finitely many keys are bound, and all
other keys have the bottom value; besides these there is the partition in which every key is top.
Writing bottom to a key unbinds it, so a domain stored here tells an empty value from bottom.
-/

namespace AliasTaint

/-- An assignment of values to keys, bottom almost everywhere or top everywhere. -/
inductive Partition (K V : Type) [Ord K] where
  | top
  | sparse (map : SortedMap K V)

namespace Partition

variable {K V : Type} [Ord K]

instance [DecidableEq K] [DecidableEq V] : DecidableEq (Partition K V)
  | .top, .top => isTrue rfl
  | .top, .sparse _ => isFalse nofun
  | .sparse _, .top => isFalse nofun
  | .sparse left, .sparse right =>
      if same : left = right then
        isTrue (congrArg sparse same)
      else
        isFalse fun equal => same (sparse.inj equal)

def empty : Partition K V := .sparse ∅

def isTop : Partition K V → Bool
  | .top => true
  | .sparse _ => false

/-! ## Reading -/

/-- The bound keys with their values, in the order of the keys. -/
def bindings : Partition K V → List (K × V)
  | .top => []
  | .sparse map => map.entries

def keys (partition : Partition K V) : List K :=
  partition.bindings.map Prod.fst

def size (partition : Partition K V) : Nat :=
  partition.bindings.length

/-- No key has a value above bottom. -/
def isEmpty : Partition K V → Bool
  | .top => false
  | .sparse map => map.isEmpty

/-- The value that a key is bound to. -/
def binding? [DecidableEq K] : Partition K V → K → Option V
  | .top, _ => none
  | .sparse map, key => map.get? key

/-- The value of a key. -/
def get [DecidableEq K] [Domain V] [HasTop V] : Partition K V → K → V
  | .top, _ => HasTop.top
  | .sparse map, key => (map.get? key).getD Domain.bottom

/-! ## Changing -/

section Changes

variable [DecidableEq K] [Std.TransOrd K] [Std.LawfulEqOrd K] [Domain V]

/-- Gives a key a value. -/
def set : Partition K V → K → V → Partition K V
  | .top, _, _ => .top
  | .sparse map, key, value =>
      match Domain.nonBottom? value with
      | none => .sparse (map.erase key)
      | some kept => .sparse (map.insert key kept)

/-- Changes the value of a key. -/
def update (partition : Partition K V) (key : K) (change : V → V) : Partition K V :=
  partition.set key (change ((partition.binding? key).getD Domain.bottom))

/-- Unbinds a key, and gives the value it had. -/
def remove : Partition K V → K → Option V × Partition K V
  | .top, _ => (none, .top)
  | .sparse map, key => (map.get? key, .sparse (map.erase key))

/-- Changes the value of every bound key. -/
def transform (partition : Partition K V) (change : V → V) : Partition K V :=
  match partition with
  | .top => .top
  | .sparse map => .sparse (map.filterMapValues fun _ value => Domain.nonBottom? (change value))

end Changes

/-! ## The order -/

section Order

variable [DecidableEq K] [Domain V]

/-- Every bound value is covered by the value of its key on the right. -/
def leq : Partition K V → Partition K V → Bool
  | _, .top => true
  | .top, .sparse _ => false
  | .sparse left, .sparse right =>
      left.entries.all fun entry =>
        match right.get? entry.1 with
        | some other => Domain.leq entry.2 other
        | none => Domain.isBottom entry.2

/-- Combines key by key; a key bound on one side only keeps its value. -/
def upper [Std.TransOrd K] [Std.LawfulEqOrd K] (both : V → V → V) :
    Partition K V → Partition K V → Partition K V
  | .top, _ => .top
  | .sparse _, .top => .top
  | .sparse left, .sparse right => .sparse (left.combine both right)

/-- Combines key by key; a key bound on one side only is unbound. -/
def lower (both : V → V → V) : Partition K V → Partition K V → Partition K V
  | left, .top => left
  | .top, right => right
  | .sparse left, .sparse right =>
      .sparse (left.filterMapValues fun key value =>
        (right.get? key).bind fun other => Domain.nonBottom? (both value other))

instance [Std.TransOrd K] [Std.LawfulEqOrd K] : Domain (Partition K V) where
  bottom := .empty
  isBottom := isEmpty
  isTop := isTop
  leq := leq
  join := upper Domain.join
  widen := upper Domain.widen
  meet := lower Domain.meet
  narrow := lower Domain.narrow

end Order

instance : HasTop (Partition K V) :=
  ⟨.top⟩

/-! ## Text -/

instance [Render K] [Render V] : Render (Partition K V) where
  render
    | .top => Text.topSymbol
    | .sparse map => Text.arrows (map.entries.map fun entry => (render entry.1, render entry.2))

instance [Inspect K] [Inspect V] : Inspect (Partition K V) where
  inspect
    | .top => Text.topSymbol
    | .sparse map => Text.mapping (map.entries.map fun entry => (inspect entry.1, inspect entry.2))

end Partition

end AliasTaint
