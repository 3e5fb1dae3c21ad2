import AliasTaint.PointsTo.AliasMap
import AliasTaint.Proofs.Refusal.Partition
import AliasTaint.Proofs.Refusal.Tree

/-!
# Points-to domains over an interface

The points-to domains are stacked: edge properties, partitions of them, trees of those partitions, and
a map of trees.  Edge properties refuse their extremes, and so do the trees.  In between, a points-to
set has all operations: it is a partition, with a top of its own.  Each layer is given here as the
interface that it makes of the layer below, and is shown to answer everything but its own extremes.
-/

namespace AliasTaint

variable {heuristics : Heuristics}

/-! ## Edge properties -/

namespace EdgeProperties

/-- What edge properties say to requests for their extremes. -/
def extremes : Extremes (EdgeProperties heuristics) where
  top := top
  setToBottom := setToBottom
  setToTop := setToTop

/-- Puts one request to all three properties of two edges. -/
def eachVia (request : (V : Type) → Interface V → V → V → Except Fault V)
    (left right : EdgeProperties heuristics) : Except Fault (EdgeProperties heuristics) := do
  pure
    { positions := ← request _ (.total _) left.positions right.positions
      features := ← request _ (.total _) left.features right.features
      collapseDepth := ← request _ (.total _) left.collapseDepth right.collapseDepth }

/-- Puts one test to all three properties of an edge. -/
def testsVia (test : (V : Type) → Interface V → V → Except Fault Bool)
    (edge : EdgeProperties heuristics) : Except Fault (Bool × Bool × Bool) := do
  pure
    (← test _ (.total _) edge.positions, ← test _ (.total _) edge.features,
      ← test _ (.total _) edge.collapseDepth)

def bottomVia : Except Fault (EdgeProperties heuristics) := do
  pure
    { positions := ← (Interface.total _).bottom
      features := ← (Interface.total _).bottom
      collapseDepth := ← (Interface.total _).bottom }

def isBottomVia (edge : EdgeProperties heuristics) : Except Fault Bool := do
  let (positions, features, collapseDepth) ← edge.testsVia @Interface.isBottom
  pure (positions && features && collapseDepth)

def isTopVia (edge : EdgeProperties heuristics) : Except Fault Bool := do
  let (positions, features, collapseDepth) ← edge.testsVia @Interface.isTop
  pure (positions && features && collapseDepth)

def leqVia (left right : EdgeProperties heuristics) : Except Fault Bool := do
  if ← left.isBottomVia then pure true
  else if ← right.isBottomVia then pure false
  else
    pure ((← (Interface.total _).leq left.positions right.positions) &&
      (← (Interface.total _).leq left.features right.features) &&
      (← (Interface.total _).leq left.collapseDepth right.collapseDepth))

/-- A bound from above: no edge counts for nothing. -/
def upperVia (request : (V : Type) → Interface V → V → V → Except Fault V)
    (left right : EdgeProperties heuristics) : Except Fault (EdgeProperties heuristics) := do
  if ← right.isBottomVia then pure left
  else if ← left.isBottomVia then pure right
  else eachVia request left right

/-- Makes a new bottom of an edge that has a bottom property; the edge is not reset. -/
def orBottomVia (edge : EdgeProperties heuristics) : Except Fault (EdgeProperties heuristics) := do
  let (positions, features, collapseDepth) ← edge.testsVia @Interface.isBottom
  if positions || features || collapseDepth then bottomVia else pure edge

/-- A bound from below: no edge leaves nothing. -/
def lowerVia (request : (V : Type) → Interface V → V → V → Except Fault V)
    (left right : EdgeProperties heuristics) : Except Fault (EdgeProperties heuristics) := do
  if ← left.isBottomVia then pure left
  else if ← right.isBottomVia then bottomVia
  else (← eachVia request left right).orBottomVia

/-- Edge properties ask their parts, which have all operations. -/
def interface : Interface (EdgeProperties heuristics) where
  toExtremes := extremes
  bottom := bottomVia
  isBottom := isBottomVia
  isTop := isTopVia
  leq := leqVia
  join := upperVia @Interface.join
  widen := upperVia @Interface.widen
  meet := lowerVia @Interface.meet
  narrow := lowerVia @Interface.narrow

def addFeaturesVia (edge : EdgeProperties heuristics) (features : FeatureSet) :
    Except Fault (EdgeProperties heuristics) := do
  if ← edge.isBottomVia then pure edge
  else pure { edge with features := edge.features.add features }

def setAlwaysCollapseVia (edge : EdgeProperties heuristics) :
    Except Fault (EdgeProperties heuristics) := do
  if ← edge.isBottomVia then pure edge else pure { edge with collapseDepth := .collapse }

def addPropertiesVia (edge further : EdgeProperties heuristics) :
    Except Fault (EdgeProperties heuristics) := do
  if (← edge.isBottomVia) || (← further.isBottomVia) then pure edge
  else
    pure
      { positions := edge.positions.addAll further.positions
        features := edge.features.add further.features
        collapseDepth := ← (Interface.total _).join edge.collapseDepth further.collapseDepth }

theorem bottomVia_eq : bottomVia = pure (bottom : EdgeProperties heuristics) :=
  rfl

theorem isBottomVia_eq (edge : EdgeProperties heuristics) : edge.isBottomVia = pure edge.isBottom :=
  rfl

theorem leqVia_eq (left right : EdgeProperties heuristics) :
    left.leqVia right = pure (left.leq right) := by
  simp only [leqVia, isBottomVia_eq, pure_bind, leq]
  cases left.isBottom <;> cases right.isBottom <;> rfl

theorem orBottomVia_eq (edge : EdgeProperties heuristics) : edge.orBottomVia = pure edge.orBottom := by
  rw [orBottomVia, bottomVia_eq]
  exact Interface.ite_pure _ bottom edge

theorem upperVia_eq {request : (V : Type) → Interface V → V → V → Except Fault V}
    {left right both : EdgeProperties heuristics} (answered : eachVia request left right = pure both) :
    upperVia request left right =
      pure (if right.isBottom then left else if left.isBottom then right else both) := by
  simp only [upperVia, isBottomVia_eq, pure_bind, answered, Interface.ite_pure]

theorem lowerVia_eq {request : (V : Type) → Interface V → V → V → Except Fault V}
    {left right both : EdgeProperties heuristics} (answered : eachVia request left right = pure both) :
    lowerVia request left right =
      pure (if left.isBottom then left else if right.isBottom then bottom else both.orBottom) := by
  simp only [lowerVia, isBottomVia_eq, pure_bind, answered, orBottomVia_eq, bottomVia_eq,
    Interface.ite_pure]

/-- Edge properties answer everything but requests for their extremes. -/
theorem interface_eq : interface = .answering (extremes : Extremes (EdgeProperties heuristics)) :=
  Interface.ext rfl rfl rfl rfl rfl rfl (funext₂ leqVia_eq)
    (funext₂ fun _ _ => upperVia_eq rfl) (funext₂ fun _ _ => upperVia_eq rfl)
    (funext₂ fun _ _ => lowerVia_eq rfl) (funext₂ fun _ _ => lowerVia_eq rfl)

theorem addFeaturesVia_eq (edge : EdgeProperties heuristics) (features : FeatureSet) :
    edge.addFeaturesVia features = pure (edge.addFeatures features) := by
  simp only [addFeaturesVia, isBottomVia_eq, pure_bind, Interface.ite_pure, addFeatures]

theorem setAlwaysCollapseVia_eq (edge : EdgeProperties heuristics) :
    edge.setAlwaysCollapseVia = pure edge.setAlwaysCollapse := by
  simp only [setAlwaysCollapseVia, isBottomVia_eq, pure_bind, Interface.ite_pure, setAlwaysCollapse]

theorem addPropertiesVia_eq (edge further : EdgeProperties heuristics) :
    edge.addPropertiesVia further = pure (edge.addProperties further) := by
  simp only [addPropertiesVia, isBottomVia_eq, pure_bind, addProperties]
  cases edge.isBottom <;> cases further.isBottom <;> rfl

end EdgeProperties

/-! ## Points-to sets -/

namespace PointsToSet

def interface : Interface (PointsToSet heuristics) :=
  .wrap mk targets (Partition.interface EdgeProperties.interface)

def getVia (set : PointsToSet heuristics) (target : Location) : Except Fault (EdgeProperties heuristics) :=
  set.targets.getVia EdgeProperties.interface target

def insertVia (set : PointsToSet heuristics) (target : Location) (edge : EdgeProperties heuristics) :
    Except Fault (PointsToSet heuristics) :=
  mk <$> set.targets.updateVia EdgeProperties.interface target fun current =>
    EdgeProperties.interface.join current edge

def withPropertiesVia (set : PointsToSet heuristics) (edge : EdgeProperties heuristics) :
    Except Fault (PointsToSet heuristics) :=
  mk <$> set.targets.transformVia EdgeProperties.interface fun current => current.addPropertiesVia edge

/-- A points-to set has all operations, although the properties of its edges have not. -/
theorem interface_eq : interface = .total (PointsToSet heuristics) := by
  rw [interface, EdgeProperties.interface_eq, Partition.interface_answering]
  rfl

theorem getVia_eq (set : PointsToSet heuristics) (target : Location) :
    set.getVia target = set.get target := by
  obtain ⟨targets⟩ := set
  rw [getVia, EdgeProperties.interface_eq]
  cases targets with
  | top =>
      rfl
  | sparse map =>
      exact SortedMap.valueVia_answering EdgeProperties.extremes map target

/-- Only the top set has no edge to give. -/
theorem get_eq_error_iff (set : PointsToSet heuristics) (target : Location) (fault : Fault) :
    set.get target = .error fault ↔
      (if Domain.isTop set then some Fault.edgeTop else none) = some fault := by
  have isTop_eq : Domain.isTop set = set.targets.isTop := rfl
  rw [get, isTop_eq]
  cases set.targets.isTop with
  | false =>
      exact ⟨nofun, nofun⟩
  | true =>
      exact ⟨fun refused => congrArg some (Except.error.inj refused),
        fun asked => congrArg Except.error (Option.some.inj asked)⟩

theorem insertVia_eq (set : PointsToSet heuristics) (target : Location)
    (edge : EdgeProperties heuristics) :
    set.insertVia target edge = pure (set.insert target edge) := by
  rw [insertVia, EdgeProperties.interface_eq]
  exact congrArg (mk <$> ·) (Partition.updateVia_answering EdgeProperties.extremes set.targets target
    fun current => current.join edge)

theorem withPropertiesVia_eq (set : PointsToSet heuristics) (edge : EdgeProperties heuristics) :
    set.withPropertiesVia edge = pure (set.withProperties edge) := by
  simp only [withPropertiesVia, EdgeProperties.interface_eq, EdgeProperties.addPropertiesVia_eq,
    Partition.transformVia_answering, map_pure, withProperties]

end PointsToSet

/-! ## Points-to trees -/

namespace PointsToTree

/-- Points-to trees as a domain; what widening gives is stated without the collapse. -/
instance : Domain (PointsToTree heuristics) where
  bottom := bottom
  isBottom := isBottom
  isTop := isTop
  leq := leq
  join := join
  widen left right := ⟨left.tree.merge policy.sink .widen right.tree⟩
  meet := meet
  narrow := narrow

/-- What points-to trees say to requests for their extremes. -/
def extremes : Extremes (PointsToTree heuristics) where
  top := top
  setToBottom := setToBottom
  setToTop := setToTop

/-- Points-to trees are trees of points-to sets, with extremes of their own. -/
def interface : Interface (PointsToTree heuristics) :=
  let policy : Policy Fault (PointsToSet heuristics) := policy
  { Interface.wrap mk tree
      (Tree.interface PointsToSet.interface policy.sink policy.maxHeight policy.onWidening.call) with
    toExtremes := extremes
    isTop := fun tree => pure tree.isTop }

def rawReadVia (tree : PointsToTree heuristics) (path : Path) : Except Fault (PointsToTree heuristics) :=
  mk <$> tree.tree.rawReadVia PointsToSet.interface path

def rawReadLongestVia (tree : PointsToTree heuristics) (path : Path) :
    Except Fault (Path × PointsToTree heuristics) := do
  let found := tree.tree.longestPath path
  pure (found, ← tree.rawReadVia found)

def visitVia (tree : PointsToTree heuristics) : Except Fault (List (Path × PointsToSet heuristics)) :=
  tree.tree.visitVia PointsToSet.interface

def visitUpVia (tree : PointsToTree heuristics) : Except Fault (List (Path × PointsToSet heuristics)) :=
  Node.filledVia PointsToSet.interface tree.tree.node.nodesUp

def writeTreeVia (tree : PointsToTree heuristics) (path : Path) (grafted : PointsToTree heuristics)
    (kind : UpdateKind) : Except Fault (PointsToTree heuristics) :=
  mk <$> tree.tree.writeTreeVia PointsToSet.interface policy.sink path grafted.tree kind

def writeVia (tree : PointsToTree heuristics) (path : Path) (set : PointsToSet heuristics)
    (kind : UpdateKind) : Except Fault (PointsToTree heuristics) :=
  tree.writeTreeVia path (leaf set) kind

def transformVia (tree : PointsToTree heuristics)
    (change : PointsToSet heuristics → Except Fault (PointsToSet heuristics)) :
    Except Fault (PointsToTree heuristics) :=
  mk <$> tree.tree.transformVia PointsToSet.interface policy.sink change

def withPropertiesVia (tree : PointsToTree heuristics) (edge : EdgeProperties heuristics) :
    Except Fault (PointsToTree heuristics) :=
  mk <$> tree.tree.updateRootVia PointsToSet.interface policy.sink fun set => set.withPropertiesVia edge

/-- Points-to trees answer everything but requests for their extremes. -/
theorem interface_eq : interface = .answering (extremes : Extremes (PointsToTree heuristics)) := by
  rw [interface, PointsToSet.interface_eq]
  have merges (op : MergeOp) (left right : PointsToTree heuristics) :=
    congrArg (mk <$> ·) (Tree.mergeVia_answering (.ofDomain _) policy.sink op left.tree right.tree)
  have widens (left right : PointsToTree heuristics) :=
    congrArg (mk <$> ·)
      (Tree.widenVia_unbounded (.ofDomain _) policy.sink policy.onWidening.call left.tree right.tree)
  have compares (left right : PointsToTree heuristics) :=
    Tree.leqVia_answering (.ofDomain _) policy.sink left.tree right.tree
  exact Interface.ext rfl rfl rfl (congrArg (mk <$> ·) (Tree.bottomVia_answering _)) rfl rfl
    (funext₂ compares) (funext₂ (merges .join)) (funext₂ widens) (funext₂ (merges .meet))
    (funext₂ (merges .narrow))

theorem rawReadVia_eq (tree : PointsToTree heuristics) (path : Path) :
    tree.rawReadVia path = pure (tree.rawRead path) := by
  rw [rawReadVia, PointsToSet.interface_eq, Interface.total, Tree.rawReadVia_answering, map_pure, rawRead]

theorem rawReadLongestVia_eq (tree : PointsToTree heuristics) (path : Path) :
    tree.rawReadLongestVia path = pure (tree.rawReadLongest path) := by
  simp only [rawReadLongestVia, rawReadVia_eq, pure_bind]
  rfl

theorem visitVia_eq (tree : PointsToTree heuristics) : tree.visitVia = pure tree.visit := by
  rw [visitVia, PointsToSet.interface_eq, Interface.total, Tree.visitVia_answering, visit]

theorem visitUpVia_eq (tree : PointsToTree heuristics) : tree.visitUpVia = pure tree.visitUp := by
  rw [visitUpVia, PointsToSet.interface_eq]
  exact Node.filledVia_answering _ tree.tree.node.nodesUp

theorem writeTreeVia_eq (tree : PointsToTree heuristics) (path : Path)
    (grafted : PointsToTree heuristics) (kind : UpdateKind) :
    tree.writeTreeVia path grafted kind = pure (tree.writeTree path grafted kind) := by
  rw [writeTreeVia, PointsToSet.interface_eq, Interface.total, Tree.writeTreeVia_answering, map_pure,
    writeTree]

theorem transformVia_eq (tree : PointsToTree heuristics)
    (change : PointsToSet heuristics → PointsToSet heuristics) :
    tree.transformVia (fun set => pure (change set)) = pure (tree.transform change) := by
  rw [transformVia, PointsToSet.interface_eq, Interface.total, Tree.transformVia_answering, map_pure,
    transform]

theorem withPropertiesVia_eq (tree : PointsToTree heuristics) (edge : EdgeProperties heuristics) :
    tree.withPropertiesVia edge = pure (tree.withProperties edge) := by
  simp only [withPropertiesVia, PointsToSet.interface_eq, Interface.total,
    PointsToSet.withPropertiesVia_eq, Tree.updateRootVia_answering, map_pure, withProperties]

end PointsToTree

/-! ## Alias maps -/

namespace AliasMap

def insertVia (aliases : AliasMap heuristics) (root : RootId) (tree : PointsToTree heuristics) :
    Except Fault (AliasMap heuristics) :=
  mk <$> aliases.trees.updateVia PointsToTree.interface root fun current =>
    PointsToTree.interface.join current tree

theorem insertVia_eq (aliases : AliasMap heuristics) (root : RootId) (tree : PointsToTree heuristics) :
    aliases.insertVia root tree = pure (aliases.insert root tree) := by
  rw [insertVia, PointsToTree.interface_eq]
  have updated := SortedMap.updateVia_answering PointsToTree.extremes aliases.trees root
    fun current => current.join tree
  refine (congrArg (mk <$> ·) updated).trans ?_
  rw [map_pure, apply_ite mk]
  rfl

end AliasMap

end AliasTaint
