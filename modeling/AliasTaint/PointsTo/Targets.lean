import AliasTaint.Access.Location
import AliasTaint.Partition
import AliasTaint.PointsTo.Edge

/-!
# Points-to sets

The locations that an access path may stand for, each with the properties of the alias edge to it.
The top set stands for every location.
-/

namespace AliasTaint

/-- Alias edges to locations. -/
structure PointsToSet (heuristics : Heuristics) where
  targets : Partition Location (EdgeProperties heuristics)
  deriving DecidableEq

namespace PointsToSet

variable {heuristics : Heuristics}

def bottom : PointsToSet heuristics := ⟨.empty⟩

def top : PointsToSet heuristics := ⟨.top⟩

/-- Adds an alias edge; a second edge to the same location is joined to the first. -/
def insert (set : PointsToSet heuristics) (target : Location) (edge : EdgeProperties heuristics) :
    PointsToSet heuristics :=
  ⟨set.targets.update target fun current => current.join edge⟩

/-- The set with one alias edge. -/
def single (target : Location) (edge : EdgeProperties heuristics) : PointsToSet heuristics :=
  bottom.insert target edge

/-- Adds alias edges one after the other. -/
def ofEdges (edges : List (Location × EdgeProperties heuristics)) : PointsToSet heuristics :=
  edges.foldl (fun set edge => set.insert edge.1 edge.2) bottom

/-- The alias edges in the order of their locations. The top set lists none. -/
def edges (set : PointsToSet heuristics) : List (Location × EdgeProperties heuristics) :=
  set.targets.bindings

def size (set : PointsToSet heuristics) : Nat :=
  set.targets.size

def isEmpty (set : PointsToSet heuristics) : Bool :=
  set.targets.isEmpty

/-- The properties of the edge to a location. The top set has none to give, because edge properties
have no greatest value. -/
def get (set : PointsToSet heuristics) (target : Location) :
    Except Fault (EdgeProperties heuristics) :=
  if set.targets.isTop then
    EdgeProperties.top
  else
    .ok ((set.targets.binding? target).getD EdgeProperties.bottom)

/-- Stamps further properties on every edge. -/
def withProperties (set : PointsToSet heuristics) (edge : EdgeProperties heuristics) :
    PointsToSet heuristics :=
  ⟨set.targets.transform fun current => current.addProperties edge⟩

instance : Domain (PointsToSet heuristics) where
  bottom := bottom
  isBottom set := Domain.isBottom set.targets
  isTop set := Domain.isTop set.targets
  leq left right := Domain.leq left.targets right.targets
  join left right := ⟨Domain.join left.targets right.targets⟩
  widen left right := ⟨Domain.widen left.targets right.targets⟩
  meet left right := ⟨Domain.meet left.targets right.targets⟩
  narrow left right := ⟨Domain.narrow left.targets right.targets⟩

instance : HasTop (PointsToSet heuristics) :=
  ⟨top⟩

instance : Render (PointsToSet heuristics) where
  render set := render set.targets

instance : Inspect (PointsToSet heuristics) where
  inspect set := Text.record "PointsToSet" [("targets", inspect set.targets)]

end PointsToSet

end AliasTaint
