import AliasTaint.PointsTo.Targets
import AliasTaint.Tree.Basic

/-!
# Points-to trees

A points-to tree says what each access path of a root may stand for. Nothing is inherited: what a
path stands for says nothing about the paths below it. Points-to trees are never collapsed, by
widening or otherwise, and they have no greatest value.
-/

namespace AliasTaint

/-- What the access paths of a root may stand for. -/
structure PointsToTree (heuristics : Heuristics) where
  tree : Tree (PointsToSet heuristics)
  deriving DecidableEq

namespace PointsToTree

variable {heuristics : Heuristics}

/-- Nothing sinks, the height is not bounded, and no value is ever moved upwards. -/
def policy : Policy Fault (PointsToSet heuristics) where
  maxHeight := none
  onWidening := .error .pointsToWidened
  sink _ := .bottom
  onHoist := .error .pointsToHoisted

def leaf (set : PointsToSet heuristics) : PointsToTree heuristics :=
  ⟨.leaf set⟩

def bottom : PointsToTree heuristics := ⟨.bottom⟩

def ofEdges (edges : List (Path × PointsToSet heuristics)) : PointsToTree heuristics :=
  ⟨.ofEdges policy.sink edges⟩

/-! ## Looking at a tree -/

def root (tree : PointsToTree heuristics) : PointsToSet heuristics :=
  tree.tree.root

def labels (tree : PointsToTree heuristics) : List PathElement :=
  tree.tree.labels

def rawRead (tree : PointsToTree heuristics) (path : Path) : PointsToTree heuristics :=
  ⟨tree.tree.rawRead path⟩

def rawReadLongest (tree : PointsToTree heuristics) (path : Path) :
    Path × PointsToTree heuristics :=
  let (found, below) := tree.tree.rawReadLongest path
  (found, ⟨below⟩)

def visit (tree : PointsToTree heuristics) : List (Path × PointsToSet heuristics) :=
  tree.tree.visit

def visitUp (tree : PointsToTree heuristics) : List (Path × PointsToSet heuristics) :=
  tree.tree.visitUp

/-! ## Changing a tree -/

def writeTree (tree : PointsToTree heuristics) (path : Path) (grafted : PointsToTree heuristics)
    (kind : UpdateKind) : PointsToTree heuristics :=
  ⟨tree.tree.writeTree policy.sink path grafted.tree kind⟩

def write (tree : PointsToTree heuristics) (path : Path) (set : PointsToSet heuristics)
    (kind : UpdateKind) : PointsToTree heuristics :=
  ⟨tree.tree.write policy.sink path set kind⟩

def transform (tree : PointsToTree heuristics)
    (change : PointsToSet heuristics → PointsToSet heuristics) : PointsToTree heuristics :=
  ⟨tree.tree.transform policy.sink change⟩

/-- Stamps further properties on the edges of the root itself. -/
def withProperties (tree : PointsToTree heuristics) (edge : EdgeProperties heuristics) :
    PointsToTree heuristics :=
  ⟨tree.tree.updateRoot policy.sink fun set => set.withProperties edge⟩

/-! ## The order -/

def isBottom (tree : PointsToTree heuristics) : Bool :=
  tree.tree.isBottom

/-- No points-to tree is the greatest. -/
def isTop (_ : PointsToTree heuristics) : Bool :=
  false

def leq (left right : PointsToTree heuristics) : Bool :=
  left.tree.leq policy.sink right.tree

def equals (left right : PointsToTree heuristics) : Bool :=
  left.leq right && right.leq left

def join (left right : PointsToTree heuristics) : PointsToTree heuristics :=
  ⟨left.tree.join policy.sink right.tree⟩

def widen (left right : PointsToTree heuristics) : Except Fault (PointsToTree heuristics) :=
  (left.tree.widen policy right.tree).map fun tree => ⟨tree⟩

def meet (left right : PointsToTree heuristics) : PointsToTree heuristics :=
  ⟨left.tree.meet policy.sink right.tree⟩

def narrow (left right : PointsToTree heuristics) : PointsToTree heuristics :=
  ⟨left.tree.narrow policy.sink right.tree⟩

/-! ## Operations that are refused -/

/-- There is no greatest value to give. -/
def top : Except Fault (PointsToTree heuristics) :=
  .error .pointsToTop

def setToTop (_ : PointsToTree heuristics) : Except Fault (PointsToTree heuristics) :=
  .error .pointsToTop

def setToBottom (_ : PointsToTree heuristics) : Except Fault (PointsToTree heuristics) :=
  .error .pointsToReset

/-! ## Text -/

instance : Render (PointsToTree heuristics) where
  render tree := "PointsToTree" ++ render tree.tree

instance : Inspect (PointsToTree heuristics) where
  inspect tree := Text.record "PointsToTree" [("tree", inspect tree.tree)]

end PointsToTree

end AliasTaint
