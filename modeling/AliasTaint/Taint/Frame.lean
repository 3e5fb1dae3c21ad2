import AliasTaint.Value.Features
import AliasTaint.Value.Positions

/-!
# Taint frames

A frame describes taint of one kind: the features it carries and the positions it passed through. A
frame with neither is not the same as no taint, which is bottom.
-/

namespace AliasTaint

/-- A kind of taint. -/
structure Kind where
  name : String
  deriving DecidableEq

namespace Kind

instance : Ord Kind :=
  ⟨compareOn name⟩

instance : Std.TransOrd Kind :=
  inferInstanceAs (Std.TransCmp (compareOn name))

instance : Std.LawfulEqOrd Kind where
  eq_of_compare {left right} same := by
    have nameEq : left.name = right.name := Std.LawfulEqOrd.eq_of_compare same
    cases left
    cases right
    simp_all

instance : Render Kind := ⟨name⟩

instance : Inspect Kind where
  inspect kind := Text.application "Kind" (inspect kind.name)

end Kind

/-- What is known about taint of one kind. -/
structure TaintFrame (heuristics : Heuristics) where
  features : FeatureSet
  positions : PositionSet heuristics
  deriving DecidableEq

namespace TaintFrame

variable {heuristics : Heuristics}

/-- Taint about which nothing further is known. -/
def empty : TaintFrame heuristics where
  features := .empty
  positions := .empty

/-- No taint. -/
def bottom : TaintFrame heuristics where
  features := .bottom
  positions := .bottom

def top : TaintFrame heuristics where
  features := .top
  positions := .widened

def isBottom (frame : TaintFrame heuristics) : Bool :=
  frame.features.isBottom && frame.positions.isBottom

def isTop (frame : TaintFrame heuristics) : Bool :=
  Domain.isTop frame.features && frame.positions.isWidened

/-! ## Adding to a frame -/

def addFeatures (frame : TaintFrame heuristics) (features : FeatureSet) :
    TaintFrame heuristics :=
  if frame.isBottom then frame else { frame with features := frame.features.add features }

def addPosition (frame : TaintFrame heuristics) (position : Position) : TaintFrame heuristics :=
  { frame with positions := frame.positions.add position }

def addPositions (frame : TaintFrame heuristics) (positions : PositionSet heuristics) :
    TaintFrame heuristics :=
  { frame with positions := frame.positions.addAll positions }

def ofFeatures (features : FeatureSet) : TaintFrame heuristics :=
  empty.addFeatures features

/-! ## The order -/

def leq (left right : TaintFrame heuristics) : Bool :=
  if left.isBottom then true
  else if right.isBottom then false
  else left.features.leq right.features && left.positions.leq right.positions

def join (left right : TaintFrame heuristics) : TaintFrame heuristics :=
  if right.isBottom then left
  else if left.isBottom then right
  else
    { features := left.features.join right.features
      positions := left.positions.join right.positions }

/-- No taint, if one part is bottom. -/
def orBottom (frame : TaintFrame heuristics) : TaintFrame heuristics :=
  if frame.features.isBottom || frame.positions.isBottom then bottom else frame

def meet (left right : TaintFrame heuristics) : TaintFrame heuristics :=
  if left.isBottom then left
  else if right.isBottom then bottom
  else
    orBottom
      { features := left.features.meet right.features
        positions := left.positions.meet right.positions }

instance : Domain (TaintFrame heuristics) where
  bottom := bottom
  isBottom := isBottom
  isTop := isTop
  leq := leq
  join := join
  widen := join
  meet := meet
  narrow := meet

instance : HasTop (TaintFrame heuristics) :=
  ⟨top⟩

/-! ## Text -/

instance : Render (TaintFrame heuristics) where
  render frame :=
    if frame.isBottom then
      Text.bottomSymbol
    else
      let features :=
        if frame.features.isEmpty then []
        else ["features=" ++ render frame.features]
      let positions :=
        if frame.positions.isEmpty then []
        else ["local_positions=" ++ render frame.positions]
      Text.application "TaintFrame" (Text.commaSeparated (features ++ positions))

instance : Inspect (TaintFrame heuristics) where
  inspect frame :=
    Text.record "TaintFrame"
      [("features", inspect frame.features), ("local_positions", inspect frame.positions)]

end TaintFrame

end AliasTaint
