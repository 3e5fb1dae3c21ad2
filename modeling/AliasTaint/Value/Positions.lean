import AliasTaint.Domain
import AliasTaint.Heuristics.Basic
import AliasTaint.Sorted.Set

/-!
# Position sets

The source positions that a flow passed through inside one procedure. A set lists its positions only
up to the limit of the heuristics; one that grows further is widened, and lists none any more.
-/

namespace AliasTaint

/-- A line of a source file. -/
structure Position where
  file : String
  line : UInt32
  deriving DecidableEq

namespace Position

instance : Ord Position :=
  ⟨compareLex (compareOn file) (compareOn line)⟩

instance : Std.TransOrd Position :=
  inferInstanceAs (Std.TransCmp (compareLex (compareOn file) (compareOn line)))

instance : Std.LawfulEqOrd Position where
  eq_of_compare {left right} same := by
    have parts := compareLex_eq_eq.mp same
    have fileEq : left.file = right.file := Std.LawfulEqOrd.eq_of_compare parts.1
    have lineEq : left.line = right.line := Std.LawfulEqOrd.eq_of_compare parts.2
    cases left
    cases right
    simp_all

instance : Render Position where
  render position := position.file ++ ":" ++ render position.line

instance : Inspect Position where
  inspect position :=
    Text.record "Position"
      [("file", inspect position.file), ("line", inspect position.line)]

end Position

/-- Positions up to the limit of the heuristics, or more than the limit. -/
inductive PositionSet (heuristics : Heuristics) where
  | bottom
  | listed (positions : SortedSet Position)
  | widened
  deriving DecidableEq

namespace PositionSet

variable {heuristics : Heuristics}

/-- No position at all, which is not the same as no flow at all. -/
def empty : PositionSet heuristics := .listed ∅

def isEmpty : PositionSet heuristics → Bool
  | .listed positions => positions.isEmpty
  | _ => false

def isBottom (positions : PositionSet heuristics) : Bool :=
  positions = .bottom

def isWidened (positions : PositionSet heuristics) : Bool :=
  positions = .widened

def positions? : PositionSet heuristics → Option (SortedSet Position)
  | .listed positions => some positions
  | _ => none

/-! ## Adding positions -/

/-- Lists the positions if there are not too many of them. -/
def limited (positions : SortedSet Position) : PositionSet heuristics :=
  if heuristics.maxPositions.toNat < positions.size then .widened else .listed positions

/-- Adds a position. -/
def add (position : Position) : PositionSet heuristics → PositionSet heuristics
  | .listed positions => limited (positions.insert position)
  | other => other

/-- Adds all positions of `right`; bottom on either side changes nothing. -/
def addAll : PositionSet heuristics → PositionSet heuristics → PositionSet heuristics
  | left, .bottom => left
  | .bottom, _ => .bottom
  | _, .widened => .widened
  | .widened, _ => .widened
  | .listed positions, .listed others => limited (positions.union others)

/-! ## The order -/

def leq : PositionSet heuristics → PositionSet heuristics → Bool
  | .bottom, _ => true
  | _, .widened => true
  | _, .bottom => false
  | .widened, _ => false
  | .listed positions, .listed others => positions.subset others

def join : PositionSet heuristics → PositionSet heuristics → PositionSet heuristics
  | left, .bottom => left
  | _, .widened => .widened
  | .bottom, right => right
  | .widened, _ => .widened
  | .listed positions, .listed others => limited (positions.union others)

def meet : PositionSet heuristics → PositionSet heuristics → PositionSet heuristics
  | left, .widened => left
  | _, .bottom => .bottom
  | .bottom, _ => .bottom
  | .widened, right => right
  | .listed positions, .listed others => .listed (positions.inter others)

instance : Domain (PositionSet heuristics) where
  bottom := .bottom
  isBottom := isBottom
  isTop := isWidened
  leq := leq
  join := join
  widen := join
  meet := meet
  narrow := meet

instance : HasTop (PositionSet heuristics) :=
  ⟨.widened⟩

/-! ## Text -/

instance : Render (PositionSet heuristics) where
  render
    | .bottom => Text.bottomSymbol
    | .widened => Text.topSymbol
    | .listed positions => Text.braced (positions.toList.map render)

instance : Inspect (PositionSet heuristics) where
  inspect
    | .bottom => "Bottom"
    | .widened => "Widened"
    | .listed positions =>
        Text.application "Positions" (Text.braced (positions.toList.map inspect))

end PositionSet

end AliasTaint
