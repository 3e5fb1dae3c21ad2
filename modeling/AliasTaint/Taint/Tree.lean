import AliasTaint.PointsTo.Edge
import AliasTaint.Taint.Basic
import AliasTaint.Tree.Basic

/-!
# Taint trees

The taint of the access paths of a root. Taint of an object taints all its parts: what an ancestor
stores sinks unchanged into everything below it. Taint that is moved upwards, because widening
bounds the height of a tree or because an alias edge collapses it, is marked with the feature
`via-collapse`.
-/

namespace AliasTaint

/-- The taint of the access paths of a root. -/
structure TaintTree (heuristics : Heuristics) where
  tree : Tree (Taint heuristics)
  deriving DecidableEq

namespace TaintTree

variable {heuristics : Heuristics}

/-- Marks taint that was moved upwards. -/
def markCollapsed (taint : Taint heuristics) : Taint heuristics :=
  taint.addFeatures (.ofMay [.viaCollapse])

/-- Taint sinks unchanged, and the height after widening is bounded. -/
def policy : Policy Empty (Taint heuristics) where
  maxHeight := some heuristics.maxTreeHeight.toNat
  onWidening := .ok markCollapsed
  sink taint := taint
  onHoist := .ok markCollapsed

def leaf (taint : Taint heuristics) : TaintTree heuristics :=
  ⟨.leaf taint⟩

def bottom : TaintTree heuristics := ⟨.bottom⟩

def top : TaintTree heuristics := leaf .top

def ofEdges (edges : List (Path × Taint heuristics)) : TaintTree heuristics :=
  ⟨.ofEdges policy.sink edges⟩

/-! ## Looking at a tree -/

def root (tree : TaintTree heuristics) : Taint heuristics :=
  tree.tree.root

def labels (tree : TaintTree heuristics) : List PathElement :=
  tree.tree.labels

def height (tree : TaintTree heuristics) : Nat :=
  tree.tree.height

def read (tree : TaintTree heuristics) (path : Path) : TaintTree heuristics :=
  ⟨tree.tree.read policy.sink path⟩

def rawRead (tree : TaintTree heuristics) (path : Path) : TaintTree heuristics :=
  ⟨tree.tree.rawRead path⟩

def readLongest (tree : TaintTree heuristics) (path : Path) : Path × TaintTree heuristics :=
  let (found, below) := tree.tree.readLongest policy.sink path
  (found, ⟨below⟩)

def rawReadLongest (tree : TaintTree heuristics) (path : Path) : Path × TaintTree heuristics :=
  let (found, below) := tree.tree.rawReadLongest path
  (found, ⟨below⟩)

def visit (tree : TaintTree heuristics) : List (Path × Taint heuristics) :=
  tree.tree.visit

def visitUp (tree : TaintTree heuristics) : List (Path × Taint heuristics) :=
  tree.tree.visitUp

/-! ## Changing a tree -/

def writeTree (tree : TaintTree heuristics) (path : Path) (grafted : TaintTree heuristics)
    (kind : UpdateKind) : TaintTree heuristics :=
  ⟨tree.tree.writeTree policy.sink path grafted.tree kind⟩

def write (tree : TaintTree heuristics) (path : Path) (taint : Taint heuristics)
    (kind : UpdateKind) : TaintTree heuristics :=
  ⟨tree.tree.write policy.sink path taint kind⟩

def transform (tree : TaintTree heuristics) (change : Taint heuristics → Taint heuristics) :
    TaintTree heuristics :=
  ⟨tree.tree.transform policy.sink change⟩

/-- All taint of the tree, where the taint below the root is marked. -/
def collapse (tree : TaintTree heuristics) : Taint heuristics :=
  tree.tree.collapse markCollapsed

/-- Moves taint that is deeper than a height up to that height. -/
def collapseDeeperThan (tree : TaintTree heuristics) (height : Nat) : TaintTree heuristics :=
  ⟨Policy.certain (tree.tree.collapseWith policy.sink height policy.onHoist)⟩

/-! ## The order -/

def isBottom (tree : TaintTree heuristics) : Bool :=
  tree.tree.isBottom

def leq (left right : TaintTree heuristics) : Bool :=
  left.tree.leq policy.sink right.tree

def join (left right : TaintTree heuristics) : TaintTree heuristics :=
  ⟨left.tree.join policy.sink right.tree⟩

def widen (left right : TaintTree heuristics) : TaintTree heuristics :=
  ⟨Policy.certain (left.tree.widen policy right.tree)⟩

def meet (left right : TaintTree heuristics) : TaintTree heuristics :=
  ⟨left.tree.meet policy.sink right.tree⟩

def narrow (left right : TaintTree heuristics) : TaintTree heuristics :=
  ⟨left.tree.narrow policy.sink right.tree⟩

instance : Domain (TaintTree heuristics) where
  bottom := bottom
  isBottom := isBottom
  isTop tree := tree.tree.isTop
  leq := leq
  join := join
  widen := widen
  meet := meet
  narrow := narrow

instance : HasTop (TaintTree heuristics) :=
  ⟨top⟩

/-! ## Crossing an alias edge -/

/-- What becomes of taint that crosses an alias edge: it is collapsed at the depth of the edge, and
every frame picks up the positions and features of the edge. -/
def cross (tree : TaintTree heuristics) (edge : EdgeProperties heuristics) :
    TaintTree heuristics :=
  let collapsed := match edge.collapseDepth.collapseAt? with
    | some depth => tree.collapseDeeperThan depth.toNat
    | none => tree
  if edge.positions.isEmpty && edge.features.isEmpty then
    collapsed
  else
    collapsed.transform fun taint =>
      (taint.addPositions edge.positions).addFeatures edge.features

/-! ## Text -/

instance : Render (TaintTree heuristics) where
  render tree := render tree.tree

instance : Inspect (TaintTree heuristics) where
  inspect tree := Text.record "TaintTree" [("tree", inspect tree.tree)]

end TaintTree

end AliasTaint
