import AliasTaint.Proofs.Refusal.PointsTo
import AliasTaint.Taint.DeepRead

/-!
# Taint over an interface

Frames, taint, taint trees and environments have all operations.  They meet the points-to domains in
deep reads: these visit a points-to tree, take the edges of every set in it, and let taint cross them.
A deep read asks nothing of an edge or a set that would be refused.
-/

namespace AliasTaint

variable {heuristics : Heuristics}

/-! ## Taint -/

namespace Taint

def interface : Interface (Taint heuristics) :=
  .wrap mk frames (Partition.interface (.total (TaintFrame heuristics)))

def stampVia (taint : Taint heuristics) (change : TaintFrame heuristics → TaintFrame heuristics) :
    Except Fault (Taint heuristics) :=
  mk <$> taint.frames.transformVia (.total _) fun frame => pure (change frame)

def addPositionsVia (taint : Taint heuristics) (positions : PositionSet heuristics) :
    Except Fault (Taint heuristics) :=
  if positions.isEmpty || positions.isBottom then pure taint
  else taint.stampVia fun frame => frame.addPositions positions

def addFeaturesVia (taint : Taint heuristics) (features : FeatureSet) :
    Except Fault (Taint heuristics) :=
  if features.isEmpty || features.isBottom then pure taint
  else taint.stampVia fun frame => frame.addFeatures features

theorem interface_eq : interface = .total (Taint heuristics) := by
  rw [interface, Interface.total, Partition.interface_answering]
  rfl

theorem stampVia_eq (taint : Taint heuristics)
    (change : TaintFrame heuristics → TaintFrame heuristics) :
    taint.stampVia change = pure ⟨taint.frames.transform change⟩ := by
  rw [stampVia, Interface.total, Partition.transformVia_answering, map_pure]

theorem addPositionsVia_eq (taint : Taint heuristics) (positions : PositionSet heuristics) :
    taint.addPositionsVia positions = pure (taint.addPositions positions) := by
  rw [addPositionsVia, stampVia_eq, Interface.ite_pure, addPositions]

theorem addFeaturesVia_eq (taint : Taint heuristics) (features : FeatureSet) :
    taint.addFeaturesVia features = pure (taint.addFeatures features) := by
  rw [addFeaturesVia, stampVia_eq, Interface.ite_pure, addFeatures]

end Taint

/-! ## Taint trees -/

namespace TaintTree

def markCollapsedVia (taint : Taint heuristics) : Except Fault (Taint heuristics) :=
  taint.addFeaturesVia (.ofMay [.viaCollapse])

def interface : Interface (TaintTree heuristics) :=
  let policy : Policy Empty (Taint heuristics) := policy
  .wrap mk tree (Tree.interface Taint.interface policy.sink policy.maxHeight markCollapsedVia)

def readVia (tree : TaintTree heuristics) (path : Path) : Except Fault (TaintTree heuristics) :=
  mk <$> tree.tree.readVia Taint.interface policy.sink path

def writeTreeVia (tree : TaintTree heuristics) (path : Path) (grafted : TaintTree heuristics)
    (kind : UpdateKind) : Except Fault (TaintTree heuristics) :=
  mk <$> tree.tree.writeTreeVia Taint.interface policy.sink path grafted.tree kind

def collapseVia (tree : TaintTree heuristics) (depth? : Option UInt32) :
    Except Fault (TaintTree heuristics) :=
  match depth? with
  | some depth =>
      mk <$> tree.tree.collapseWithVia Taint.interface policy.sink depth.toNat markCollapsedVia
  | none => pure tree

/-- Taint crosses an alias edge: it is collapsed first, and then every value is stamped. -/
def crossVia (tree : TaintTree heuristics) (edge : EdgeProperties heuristics) :
    Except Fault (TaintTree heuristics) := do
  let collapsed ← tree.collapseVia edge.collapseDepth.collapseAt?
  if edge.positions.isEmpty && edge.features.isEmpty then pure collapsed
  else
    mk <$> collapsed.tree.transformVia Taint.interface policy.sink fun taint => do
      (← taint.addPositionsVia edge.positions).addFeaturesVia edge.features

theorem markCollapsedVia_eq :
    markCollapsedVia = fun taint : Taint heuristics => pure (markCollapsed taint) :=
  funext fun taint => taint.addFeaturesVia_eq _

theorem interface_eq : interface = .total (TaintTree heuristics) := by
  rw [interface, Taint.interface_eq, markCollapsedVia_eq]
  have merges (op : MergeOp) (left right : TaintTree heuristics) :=
    congrArg (mk <$> ·) (Tree.mergeVia_answering (.ofDomain _) policy.sink op left.tree right.tree)
  have marked : policy.onWidening = .ok (@markCollapsed heuristics) := rfl
  have widens (left right : TaintTree heuristics) :=
    congrArg (mk <$> ·) (Tree.widenVia_marked (.ofDomain _) marked left.tree right.tree)
  have compares (left right : TaintTree heuristics) :=
    Tree.leqVia_answering (.ofDomain _) policy.sink left.tree right.tree
  have bottoms := congrArg (mk <$> ·) (Tree.bottomVia_answering (.ofDomain (Taint heuristics)))
  exact Interface.ext rfl (funext fun _ => bottoms) rfl bottoms rfl rfl (funext₂ compares)
    (funext₂ (merges .join)) (funext₂ widens) (funext₂ (merges .meet)) (funext₂ (merges .narrow))

theorem readVia_eq (tree : TaintTree heuristics) (path : Path) :
    tree.readVia path = pure (tree.read path) := by
  rw [readVia, Taint.interface_eq, Interface.total, Tree.readVia_answering, map_pure, read]

theorem writeTreeVia_eq (tree : TaintTree heuristics) (path : Path) (grafted : TaintTree heuristics)
    (kind : UpdateKind) :
    tree.writeTreeVia path grafted kind = pure (tree.writeTree path grafted kind) := by
  rw [writeTreeVia, Taint.interface_eq, Interface.total, Tree.writeTreeVia_answering, map_pure,
    writeTree]

theorem collapseVia_eq (tree : TaintTree heuristics) (depth? : Option UInt32) :
    tree.collapseVia depth? =
      pure (match depth? with
        | some depth => tree.collapseDeeperThan depth.toNat
        | none => tree) := by
  cases depth? with
  | none =>
      rfl
  | some depth =>
      rw [collapseVia, Taint.interface_eq, Interface.total, markCollapsedVia_eq,
        Tree.collapseWithVia_answering]
      rfl

theorem crossVia_eq (tree : TaintTree heuristics) (edge : EdgeProperties heuristics) :
    tree.crossVia edge = pure (tree.cross edge) := by
  simp only [crossVia, collapseVia_eq, pure_bind, Taint.addPositionsVia_eq, Taint.addFeaturesVia_eq,
    Taint.interface_eq, Interface.total, Tree.transformVia_answering, map_pure, Interface.ite_pure]
  rfl

end TaintTree

/-! ## Environments -/

namespace Environment

def interface : Interface (Environment heuristics) :=
  .wrap mk trees (Partition.interface TaintTree.interface)

def readVia (environment : Environment heuristics) (location : Location) :
    Except Fault (TaintTree heuristics) :=
  match environment.trees with
  | .top => TaintTree.interface.top
  | .sparse trees =>
      match trees.get? location.root with
      | some tree => tree.readVia location.path
      | none => TaintTree.interface.bottom

def writeVia (environment : Environment heuristics) (location : Location) (path : Path)
    (taint : TaintTree heuristics) (kind : UpdateKind) : Except Fault (Environment heuristics) :=
  mk <$> environment.trees.updateVia TaintTree.interface location.root fun tree =>
    tree.writeTreeVia (location.path ++ path) taint kind

/-- Lets the taint of every target cross its edge, and writes it where the edge starts. -/
def throughEdgesVia (aliases : PointsToTree heuristics)
    (taintOf : Location → Except Fault (TaintTree heuristics)) : Except Fault (TaintTree heuristics) := do
  let visited ← aliases.visitVia
  visited.foldlM
    (fun result stored =>
      stored.2.edges.foldlM
        (fun current edge => do
          let crossed ← (← taintOf edge.1).crossVia edge.2
          current.writeTreeVia stored.1 crossed .weak)
        result)
    (← TaintTree.interface.bottom)

/-- Follows the aliases of the targets as well, while there are hops left. -/
def deepReadHopsVia (environment : Environment heuristics) (aliases : AliasMap heuristics) :
    Nat → Location → Except Fault (TaintTree heuristics)
  | 0, location => environment.readVia location
  | hops + 1, location =>
      match aliases.get? location.root with
      | none => TaintTree.interface.bottom
      | some tree => do
          let reached ← throughEdgesVia tree fun target =>
            match hops with
            | 0 => environment.readVia target
            | further + 1 => do
                TaintTree.interface.join (← environment.readVia target)
                  (← deepReadHopsVia environment aliases (further + 1) target)
          reached.readVia location.path

theorem interface_eq : interface = .total (Environment heuristics) := by
  rw [interface, TaintTree.interface_eq, Interface.total, Partition.interface_answering]
  rfl

theorem readVia_eq (environment : Environment heuristics) (location : Location) :
    environment.readVia location = pure (environment.read location) := by
  unfold readVia read
  rw [TaintTree.interface_eq]
  cases environment.trees with
  | top =>
      rfl
  | sparse trees =>
      cases found : trees.get? location.root with
      | none =>
          simp only [found]
          rfl
      | some tree =>
          simp only [found, TaintTree.readVia_eq]

theorem writeVia_eq (environment : Environment heuristics) (location : Location) (path : Path)
    (taint : TaintTree heuristics) (kind : UpdateKind) :
    environment.writeVia location path taint kind =
      pure (environment.write location path taint kind) := by
  simp only [writeVia, TaintTree.interface_eq, TaintTree.writeTreeVia_eq, Interface.total,
    Partition.updateVia_answering, map_pure, write]

/-- Taint passes through all edges, if the taint of every target is answered. -/
theorem throughEdgesVia_pure (aliases : PointsToTree heuristics)
    (taintOf : Location → TaintTree heuristics) :
    throughEdgesVia aliases (fun target => pure (taintOf target)) =
      pure (throughEdges aliases taintOf) := by
  simp only [throughEdgesVia, PointsToTree.visitVia_eq, pure_bind, TaintTree.crossVia_eq,
    TaintTree.writeTreeVia_eq, List.foldlM_pure, TaintTree.interface_eq, Interface.total,
    Interface.answering_bottom]
  rfl

theorem deepReadHopsVia_eq (environment : Environment heuristics) (aliases : AliasMap heuristics)
    (hops : Nat) (location : Location) :
    environment.deepReadHopsVia aliases hops location =
      pure (environment.deepReadHops aliases hops location) := by
  induction hops generalizing location with
  | zero =>
      exact environment.readVia_eq location
  | succ hops inductionHypothesis =>
      rw [deepReadHopsVia, deepReadHops]
      cases aliases.get? location.root with
      | none =>
          rw [TaintTree.interface_eq]
          rfl
      | some tree =>
          cases hops with
          | zero =>
              simp only [readVia_eq, throughEdgesVia_pure, pure_bind, TaintTree.readVia_eq]
          | succ further =>
              simp only [readVia_eq, inductionHypothesis, TaintTree.interface_eq, Interface.total,
                Interface.answering_join, throughEdgesVia_pure, pure_bind, TaintTree.readVia_eq]
              rfl

end Environment

end AliasTaint
