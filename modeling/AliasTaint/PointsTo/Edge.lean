import AliasTaint.Value.CollapseDepth
import AliasTaint.Value.Features
import AliasTaint.Value.Positions

/-!
# Properties of alias edges

An alias edge leads from an access path to a location that it may stand for. Its properties say what
happens to taint that crosses the edge: the positions and features it picks up, and the depth at
which it is collapsed. An edge with no properties is not the same as no edge, which is bottom. Edge
properties have no greatest value.
-/

namespace AliasTaint

/-- What taint picks up when it crosses an alias edge. -/
structure EdgeProperties (heuristics : Heuristics) where
  positions : PositionSet heuristics
  features : FeatureSet
  collapseDepth : CollapseDepth
  deriving DecidableEq

namespace EdgeProperties

variable {heuristics : Heuristics}

/-- An edge that picks up nothing and collapses at a given depth. -/
def ofCollapseDepth (collapseDepth : CollapseDepth) : EdgeProperties heuristics where
  positions := .empty
  features := .empty
  collapseDepth := collapseDepth

/-- An edge that changes nothing. -/
def empty : EdgeProperties heuristics :=
  ofCollapseDepth .noCollapse

/-- An edge that collapses everything. -/
def alwaysCollapse : EdgeProperties heuristics :=
  ofCollapseDepth .collapse

/-- No edge. -/
def bottom : EdgeProperties heuristics where
  positions := .bottom
  features := .bottom
  collapseDepth := .bottom

/-! ## Tests -/

def isBottom (edge : EdgeProperties heuristics) : Bool :=
  edge.positions.isBottom && edge.features.isBottom && Domain.isBottom edge.collapseDepth

def isTop (edge : EdgeProperties heuristics) : Bool :=
  edge.positions.isWidened && Domain.isTop edge.features && Domain.isTop edge.collapseDepth

def isEmpty (edge : EdgeProperties heuristics) : Bool :=
  edge.positions.isEmpty && edge.features.isEmpty && edge.collapseDepth = .noCollapse

def isWidened (edge : EdgeProperties heuristics) : Bool :=
  edge.positions.isWidened

def shouldCollapse (edge : EdgeProperties heuristics) : Bool :=
  edge.collapseDepth.shouldCollapse

/-! ## Adding properties -/

def addPosition (edge : EdgeProperties heuristics) (position : Position) :
    EdgeProperties heuristics :=
  { edge with positions := edge.positions.add position }

def addFeatures (edge : EdgeProperties heuristics) (features : FeatureSet) :
    EdgeProperties heuristics :=
  if edge.isBottom then edge else { edge with features := edge.features.add features }

/-- From now on the edge collapses everything. -/
def setAlwaysCollapse (edge : EdgeProperties heuristics) : EdgeProperties heuristics :=
  if edge.isBottom then edge else { edge with collapseDepth := .collapse }

/-- Stamps the properties of a further edge on this one. -/
def addProperties (edge further : EdgeProperties heuristics) : EdgeProperties heuristics :=
  if edge.isBottom || further.isBottom then
    edge
  else
    { positions := edge.positions.addAll further.positions
      features := edge.features.add further.features
      collapseDepth := edge.collapseDepth.join further.collapseDepth }

/-! ## The order -/

def leq (left right : EdgeProperties heuristics) : Bool :=
  if left.isBottom then true
  else if right.isBottom then false
  else
    left.positions.leq right.positions && left.features.leq right.features &&
      left.collapseDepth.leq right.collapseDepth

def join (left right : EdgeProperties heuristics) : EdgeProperties heuristics :=
  if right.isBottom then left
  else if left.isBottom then right
  else
    { positions := left.positions.join right.positions
      features := left.features.join right.features
      collapseDepth := left.collapseDepth.join right.collapseDepth }

/-- No edge, if some property is bottom. -/
def orBottom (edge : EdgeProperties heuristics) : EdgeProperties heuristics :=
  if edge.positions.isBottom || edge.features.isBottom || Domain.isBottom edge.collapseDepth then
    bottom
  else
    edge

def meet (left right : EdgeProperties heuristics) : EdgeProperties heuristics :=
  if left.isBottom then left
  else if right.isBottom then bottom
  else
    orBottom
      { positions := left.positions.meet right.positions
        features := left.features.meet right.features
        collapseDepth := left.collapseDepth.meet right.collapseDepth }

instance : Domain (EdgeProperties heuristics) where
  bottom := bottom
  isBottom := isBottom
  isTop := isTop
  leq := leq
  join := join
  widen := join
  meet := meet
  narrow := meet

/-! ## Operations that are refused -/

/-- There is no greatest value to give. -/
def top : Except Fault (EdgeProperties heuristics) :=
  .error .edgeTop

def setToTop (_ : EdgeProperties heuristics) : Except Fault (EdgeProperties heuristics) :=
  .error .edgeTop

def setToBottom (_ : EdgeProperties heuristics) : Except Fault (EdgeProperties heuristics) :=
  .error .edgeReset

/-! ## Text -/

instance : Render (EdgeProperties heuristics) where
  render edge :=
    if edge.isBottom then
      Text.bottomSymbol
    else
      let positions :=
        if edge.positions.isEmpty then []
        else ["local_positions=" ++ render edge.positions]
      let features :=
        if edge.features.isEmpty then []
        else ["locally_inferred_features=" ++ render edge.features]
      let depth := ["collapse_depth=" ++ render edge.collapseDepth]
      Text.application "AliasingProperties"
        (Text.commaSeparated (positions ++ features ++ depth))

instance : Inspect (EdgeProperties heuristics) where
  inspect edge :=
    Text.record "AliasingProperties"
      [("local_positions", inspect edge.positions),
       ("locally_inferred_features", inspect edge.features),
       ("collapse_depth", inspect edge.collapseDepth)]

end EdgeProperties

end AliasTaint
