import AliasTaint.Proofs.Taint.DeepReadMonotone

/-!
# Deep reads through unknown aliases

The top points-to set stands for every location, but it lists no edges.  A deep read follows the edges
that are listed, so a top set brings nothing: the read is the same as if the set were removed.  A path
whose targets become unknown is then read as less tainted than before, and not as more.

What a deep read depends on is the list of edges of each root.  The edges are listed path by path, so
alias maps that have the same edges at every path list them in the same order.
-/

namespace AliasTaint

open Domain

variable {heuristics : Heuristics}

/-! ## Edges path by path -/

namespace PointsToTree

/-- The paths that edges start at, each with its edges. -/
def edgesByPath (tree : PointsToTree heuristics) :
    List (Path × List (Location × EdgeProperties heuristics)) :=
  (tree.visit.map fun stored => (stored.1, stored.2.edges)).filter fun entry => !entry.2.isEmpty

theorem increasing_edgesByPath (tree : PointsToTree heuristics) :
    Entries.Increasing tree.edgesByPath := by
  have visited : Entries.Increasing tree.visit :=
    (Node.increasing_nodes tree.tree.ordered).filter _
  exact (visited.mapValues fun stored => stored.2.edges).filter _

theorem mem_edgesByPath_iff {tree : PointsToTree heuristics} {path : Path}
    {edges : List (Location × EdgeProperties heuristics)} :
    (path, edges) ∈ tree.edgesByPath ↔ (tree.targetsAt path).edges = edges ∧ edges ≠ [] := by
  rw [edgesByPath, List.mem_filter, List.mem_map, Bool.not_eq_true', List.isEmpty_eq_false_iff]
  refine and_congr_left fun someEdge => ?_
  constructor
  · rintro ⟨⟨_, set⟩, isVisited, same⟩
    cases same
    rw [(mem_visit_iff.mp isVisited).1]
  · rintro rfl
    have filled := PointsToSet.filled_of_edges someEdge
    exact ⟨(path, tree.targetsAt path), mem_visit_iff.mpr ⟨rfl, filled⟩, rfl⟩

theorem aliasEdges_eq_flatMap (tree : PointsToTree heuristics) :
    tree.aliasEdges = tree.edgesByPath.flatMap fun entry =>
      entry.2.map fun edge => ⟨entry.1, edge.1, edge.2⟩ := by
  rw [aliasEdges, edgesByPath]
  induction tree.visit with
  | nil =>
      rfl
  | cons stored rest inductionHypothesis =>
      rw [List.flatMap_cons, inductionHypothesis, List.map_cons, List.filter_cons]
      cases noEdges : stored.2.edges.isEmpty with
      | true =>
          rw [List.isEmpty_iff.mp noEdges]
          rfl
      | false =>
          rfl

/-- Trees with the same edges at every path list them in the same order. -/
theorem aliasEdges_eq_of_edges_eq {tree other : PointsToTree heuristics}
    (same : ∀ path, (tree.targetsAt path).edges = (other.targetsAt path).edges) :
    tree.aliasEdges = other.aliasEdges := by
  have sameByPath : tree.edgesByPath = other.edgesByPath := by
    refine Entries.eq_of_increasing_of_mem_iff Prod.fst tree.increasing_edgesByPath
      other.increasing_edgesByPath ?_
    rintro ⟨path, edges⟩
    rw [mem_edgesByPath_iff, mem_edgesByPath_iff, same path]
  rw [aliasEdges_eq_flatMap, sameByPath, ← aliasEdges_eq_flatMap]

end PointsToTree

namespace AliasMap

/-- The set that an alias map has for a path of a root, bottom if the root has no points-to tree. -/
def targetsAt (aliases : AliasMap heuristics) (root : RootId) (path : Path) :
    PointsToSet heuristics :=
  ((aliases.get? root).getD .bottom).targetsAt path

theorem edgesOf_eq_aliasEdges (aliases : AliasMap heuristics) (root : RootId) :
    aliases.edgesOf root = ((aliases.get? root).getD .bottom).aliasEdges := by
  rw [edgesOf]
  cases aliases.get? root <;> rfl

theorem mem_edgesOf_iff_mem_targetsAt {aliases : AliasMap heuristics} {root : RootId}
    {edge : AliasEdge heuristics} :
    edge ∈ aliases.edgesOf root ↔
      (edge.target, edge.properties) ∈ (aliases.targetsAt root edge.path).edges := by
  rw [edgesOf_eq_aliasEdges, PointsToTree.mem_aliasEdges_iff]
  rfl

theorem edgesOf_eq_of_edges_eq {aliases other : AliasMap heuristics} {root : RootId}
    (same : ∀ path, (aliases.targetsAt root path).edges = (other.targetsAt root path).edges) :
    aliases.edgesOf root = other.edgesOf root := by
  rw [edgesOf_eq_aliasEdges, edgesOf_eq_aliasEdges]
  exact PointsToTree.aliasEdges_eq_of_edges_eq same

/-! ## Replaced sets -/

/-- The alias map with the set at one path of one root replaced by another. -/
structure ReplacedAt (aliases : AliasMap heuristics) (root : RootId) (path : Path)
    (set : PointsToSet heuristics) (replaced : AliasMap heuristics) : Prop where
  here : replaced.targetsAt root path = set
  elsewhere (otherRoot : RootId) (otherPath : Path) : (otherRoot, otherPath) ≠ (root, path) →
    replaced.targetsAt otherRoot otherPath = aliases.targetsAt otherRoot otherPath

section Replaced

variable {aliases replaced other : AliasMap heuristics} {root : RootId} {path : Path}
  {set otherSet : PointsToSet heuristics}

theorem replacedAt_self (aliases : AliasMap heuristics) (root : RootId) (path : Path) :
    aliases.ReplacedAt root path (aliases.targetsAt root path) aliases :=
  ⟨rfl, fun _ _ _ => rfl⟩

/-- Only the edges of the sets matter that a set is replaced by. -/
theorem ReplacedAt.edgesOf_eq (isReplaced : aliases.ReplacedAt root path set replaced)
    (otherReplaced : aliases.ReplacedAt root path otherSet other)
    (sameEdges : set.edges = otherSet.edges) (start : RootId) :
    replaced.edgesOf start = other.edgesOf start := by
  refine edgesOf_eq_of_edges_eq fun otherPath => ?_
  by_cases isHere : (start, otherPath) = (root, path)
  · cases isHere
    rw [isReplaced.here, otherReplaced.here, sameEdges]
  · rw [isReplaced.elsewhere start otherPath isHere, otherReplaced.elsewhere start otherPath isHere]

/-- A set without edges takes away the edges that were there, and no other. -/
theorem ReplacedAt.mem_edgesOf_iff (isReplaced : aliases.ReplacedAt root path set replaced)
    (noEdges : set.edges = []) {start : RootId} {edge : AliasEdge heuristics} :
    edge ∈ replaced.edgesOf start ↔
      edge ∈ aliases.edgesOf start ∧ (start, edge.path) ≠ (root, path) := by
  rw [mem_edgesOf_iff_mem_targetsAt, mem_edgesOf_iff_mem_targetsAt]
  by_cases isHere : (start, edge.path) = (root, path)
  · obtain ⟨sameRoot, samePath⟩ := Prod.mk.inj isHere
    rw [sameRoot, samePath, isReplaced.here, noEdges]
    exact iff_of_false nofun fun excluded => excluded.2 rfl
  · rw [isReplaced.elsewhere start edge.path isHere]
    exact (and_iff_left isHere).symm

end Replaced

end AliasMap

/-! ## Deep reads -/

namespace Environment

/-- A deep read depends on the aliases through the edges of each root only. -/
theorem deepReadHops_eq_of_edgesOf_eq (environment : Environment heuristics)
    {aliases other : AliasMap heuristics}
    (same : ∀ root, aliases.edgesOf root = other.edgesOf root) (hops : Nat) (location : Location) :
    environment.deepReadHops aliases hops location =
      environment.deepReadHops other hops location := by
  induction hops generalizing location with
  | zero =>
      rfl
  | succ hops inductionHypothesis =>
      have sameTargets :
          environment.targetTaint aliases hops = environment.targetTaint other hops := by
        funext target
        cases hops with
        | zero =>
            rfl
        | succ further =>
            rw [targetTaint, targetTaint, inductionHypothesis target]
      rw [deepReadHops_succ, deepReadHops_succ, same, sameTargets]

section Fewer

variable {environment : Environment heuristics} (formed : environment.WellFormed)
  {aliases fewer : AliasMap heuristics}
  (kept : ∀ {root : RootId} {edge : AliasEdge heuristics},
    edge ∈ fewer.edgesOf root → edge ∈ aliases.edgesOf root)

include formed kept

/-- Fewer edges bring no further kind of taint. -/
theorem carries_deepReadHops_of_fewer (hops : Nat) (location : Location) {path : Path} {kind : Kind}
    (carried : ((environment.deepReadHops fewer hops location).view path).Carries kind) :
    ((environment.deepReadHops aliases hops location).view path).Carries kind := by
  cases hops with
  | zero =>
      exact carried
  | succ hops =>
      rw [Taint.carries_iff_not_lacks] at carried ⊢
      intro lacking
      refine carried (keepsKind_deepReadHops_of_edges formed formed ?_
        (fun _ _ readLacks => readLacks) (Nat.le_refl hops) location path lacking)
      intro root edge member
      have sameDepth : edge.properties.collapseDepth.leq edge.properties.collapseDepth :=
        LawfulDomain.leq_refl edge.properties.collapseDepth
      exact ⟨edge.properties, kept member, sameDepth⟩

/-- In a single hop, a read with fewer edges is covered by the read with all of them.  It covers that
read exactly if it covers what the other edges bring. -/
theorem deepReadHops_one_leq_iff_of_fewer (location : Location) :
    (environment.deepReadHops fewer 1 location).leq
      (environment.deepReadHops aliases 1 location) ∧
    ((environment.deepReadHops aliases 1 location).leq
        (environment.deepReadHops fewer 1 location) ↔
      ∀ edge ∈ aliases.edgesOf location.root, edge ∉ fewer.edgesOf location.root →
        ∀ path rest, edge.path ++ rest = location.path ++ path →
          Domain.leq ((edge.brings environment.read).view rest)
            ((environment.deepReadHops fewer 1 location).view path)) := by
  have allStores := stores_whole_deepReadHops formed aliases 1 location
  have fewerStores := stores_whole_deepReadHops formed fewer 1 location
  have allCovered {upper : Taint heuristics} (goodUpper : upper.Whole fun _ => True) (path : Path) :=
    inside_view_deepReadHops_iff_of_wellFormed formed aliases (ideal_leq goodUpper) 0 location path
  have fewerCovered {upper : Taint heuristics} (goodUpper : upper.Whole fun _ => True)
      (path : Path) :=
    inside_view_deepReadHops_iff_of_wellFormed formed fewer (ideal_leq goodUpper) 0 location path
  constructor
  · rw [TaintTree.leq_iff_view_leq fewerStores allStores]
    intro path
    have goodUpper := TaintTree.good_view allStores path
    have shown := (allCovered goodUpper path).mp (SemilatticeOn.leq_refl goodUpper)
    exact (fewerCovered goodUpper path).mpr fun edge member => shown edge (kept member)
  · rw [TaintTree.leq_iff_view_leq allStores fewerStores]
    constructor
    · intro covered edge member _ path
      exact (allCovered (TaintTree.good_view fewerStores path) path).mp (covered path) edge member
    · intro othersCovered path
      have goodUpper := TaintTree.good_view fewerStores path
      have shown := (fewerCovered goodUpper path).mp (SemilatticeOn.leq_refl goodUpper)
      refine (allCovered goodUpper path).mpr fun edge member => ?_
      by_cases isKept : edge ∈ fewer.edgesOf location.root
      · exact shown edge isKept
      · exact othersCovered edge member isKept path

end Fewer

/-- A deep read with a top set in place of another one is the read with that set removed.  It brings no
further kind of taint than the read with the known set.  It is the same read if the known set has no
edges, and in a single hop it covers the read with the known set exactly if the rest of the aliases
bring what the edges of that set bring. -/
theorem deepReadHops_unknown_eq_removed {environment : Environment heuristics}
    (formed : environment.WellFormed) {aliases unknown removed : AliasMap heuristics}
    {root : RootId} {path : Path} (isUnknown : aliases.ReplacedAt root path .top unknown)
    (isRemoved : aliases.ReplacedAt root path .bottom removed) (hops : Nat) (location : Location) :
    environment.deepReadHops unknown hops location =
        environment.deepReadHops removed hops location ∧
      (∀ shownAt kind,
        ((environment.deepReadHops unknown hops location).view shownAt).Carries kind →
          ((environment.deepReadHops aliases hops location).view shownAt).Carries kind) ∧
      ((aliases.targetsAt root path).edges = [] →
        environment.deepReadHops unknown hops location =
          environment.deepReadHops aliases hops location) ∧
      (environment.deepReadHops unknown 1 location).leq
        (environment.deepReadHops aliases 1 location) ∧
      ((environment.deepReadHops aliases 1 location).leq
          (environment.deepReadHops unknown 1 location) ↔
        ∀ edge ∈ aliases.edgesOf location.root, (location.root, edge.path) = (root, path) →
          ∀ shownAt rest, edge.path ++ rest = location.path ++ shownAt →
            Domain.leq (((environment.read edge.target).cross edge.properties).view rest)
              ((environment.deepReadHops unknown 1 location).view shownAt)) := by
  have remaining {start : RootId} {edge : AliasEdge heuristics} :
      edge ∈ unknown.edgesOf start ↔
        edge ∈ aliases.edgesOf start ∧ (start, edge.path) ≠ (root, path) :=
    isUnknown.mem_edgesOf_iff rfl
  have kept {start : RootId} {edge : AliasEdge heuristics}
      (member : edge ∈ unknown.edgesOf start) : edge ∈ aliases.edgesOf start :=
    (remaining.mp member).1
  obtain ⟨covered, coveredIff⟩ := deepReadHops_one_leq_iff_of_fewer formed kept location
  refine ⟨?_, ?_, ?_, covered, coveredIff.trans ?_⟩
  · exact environment.deepReadHops_eq_of_edgesOf_eq (isUnknown.edgesOf_eq isRemoved rfl) hops location
  · intro shownAt kind
    exact carries_deepReadHops_of_fewer formed kept hops location
  · intro noEdges
    exact environment.deepReadHops_eq_of_edgesOf_eq
      (isUnknown.edgesOf_eq (aliases.replacedAt_self root path) noEdges.symm) hops location
  · refine forall₂_congr fun edge member => imp_congr_left ?_
    rw [remaining, and_iff_right member, ne_eq, Classical.not_not]

end Environment

/-! ## A set that becomes unknown -/

namespace AliasMap

/-- The alias map where a root itself may stand for the locations of a set, and the paths below it for
nothing. -/
def withTargets (aliases : AliasMap heuristics) (root : RootId) (set : PointsToSet heuristics) :
    AliasMap heuristics :=
  ⟨aliases.trees.insert root (.leaf set)⟩

theorem targetsAt_withTargets (aliases : AliasMap heuristics) (root other : RootId)
    (set : PointsToSet heuristics) (path : Path) :
    (aliases.withTargets root set).targetsAt other path =
      if other = root then if path = [] then set else .bottom else aliases.targetsAt other path := by
  have found : (aliases.withTargets root set).get? other =
      if other = root then some (.leaf set) else aliases.get? other :=
    Entries.lookup_insert root other _ aliases.trees.entries
  rw [targetsAt, found]
  by_cases isRoot : other = root
  · rw [if_pos isRoot, if_pos isRoot]
    cases path with
    | nil =>
        rfl
    | cons label rest =>
        exact Node.stored_bottom rest
  · rw [if_neg isRoot, if_neg isRoot]
    rfl

theorem replacedAt_withTargets (aliases : AliasMap heuristics) (root : RootId)
    (set other : PointsToSet heuristics) :
    (aliases.withTargets root set).ReplacedAt root [] other (aliases.withTargets root other) := by
  constructor
  · rw [targetsAt_withTargets, if_pos rfl, if_pos rfl]
  · intro otherRoot otherPath elsewhere
    rw [targetsAt_withTargets, targetsAt_withTargets]
    by_cases isRoot : otherRoot = root
    · have below : otherPath ≠ [] := fun isEmpty => elsewhere (by rw [isRoot, isEmpty])
      rw [if_pos isRoot, if_pos isRoot, if_neg below, if_neg below]
    · rw [if_neg isRoot, if_neg isRoot]

end AliasMap

namespace Environment

/-- A root that may stand for a second one, which may stand for the locations of a set. -/
def aliasesTo (set : PointsToSet .standard) : AliasMap .standard :=
  (AliasMap.empty.withTargets ⟨2⟩ (.single ⟨⟨0⟩, []⟩ .empty)).withTargets ⟨0⟩ set

def knownTarget : PointsToSet .standard :=
  .single ⟨⟨1⟩, []⟩ .empty

/-- The set is behind a further alias, which is still followed to the unknown set in the second hop. -/
theorem deepReadHops_unknown_eq_removed_behind :
    oneTainted.WellFormed ∧
    (aliasesTo knownTarget).ReplacedAt ⟨0⟩ [] .top (aliasesTo .top) ∧
    (aliasesTo knownTarget).ReplacedAt ⟨0⟩ [] .bottom (aliasesTo .bottom) ∧
    oneTainted.deepReadHops (aliasesTo .top) 2 ⟨⟨2⟩, []⟩ =
      oneTainted.deepReadHops (aliasesTo .bottom) 2 ⟨⟨2⟩, []⟩ ∧
    (oneTainted.deepReadHops (aliasesTo .top) 1 ⟨⟨0⟩, []⟩).leq
      (oneTainted.deepReadHops (aliasesTo knownTarget) 1 ⟨⟨0⟩, []⟩) := by
  have formed : oneTainted.WellFormed := of_decide_eq_true (by cbv)
  have isUnknown : (aliasesTo knownTarget).ReplacedAt ⟨0⟩ [] .top (aliasesTo .top) :=
    AliasMap.replacedAt_withTargets _ ⟨0⟩ knownTarget .top
  have isRemoved : (aliasesTo knownTarget).ReplacedAt ⟨0⟩ [] .bottom (aliasesTo .bottom) :=
    AliasMap.replacedAt_withTargets _ ⟨0⟩ knownTarget .bottom
  exact ⟨formed, isUnknown, isRemoved,
    (deepReadHops_unknown_eq_removed formed isUnknown isRemoved 2 ⟨⟨2⟩, []⟩).1,
    (deepReadHops_unknown_eq_removed formed isUnknown isRemoved 1 ⟨⟨0⟩, []⟩).2.2.2.1⟩

/-- The taint of the known target is lost, at the root itself and behind the further alias. -/
theorem deepReadHops_unknown_loses_taint :
    oneTainted.WellFormed ∧
    (aliasesTo knownTarget).ReplacedAt ⟨0⟩ [] .top (aliasesTo .top) ∧
    ¬ (oneTainted.deepReadHops (aliasesTo knownTarget) 1 ⟨⟨0⟩, []⟩).leq
      (oneTainted.deepReadHops (aliasesTo .top) 1 ⟨⟨0⟩, []⟩) ∧
    ¬ (oneTainted.deepReadHops (aliasesTo knownTarget) 2 ⟨⟨2⟩, []⟩).leq
      (oneTainted.deepReadHops (aliasesTo .top) 2 ⟨⟨2⟩, []⟩) := by
  have uncovered :
      (oneTainted.deepReadHops (aliasesTo knownTarget) 1 ⟨⟨0⟩, []⟩).leq
        (oneTainted.deepReadHops (aliasesTo .top) 1 ⟨⟨0⟩, []⟩) = false := by cbv
  have uncoveredBehind :
      (oneTainted.deepReadHops (aliasesTo knownTarget) 2 ⟨⟨2⟩, []⟩).leq
        (oneTainted.deepReadHops (aliasesTo .top) 2 ⟨⟨2⟩, []⟩) = false := by cbv
  exact ⟨of_decide_eq_true (by cbv), AliasMap.replacedAt_withTargets _ ⟨0⟩ knownTarget .top,
    Bool.eq_false_iff.mp uncovered, Bool.eq_false_iff.mp uncoveredBehind⟩

end Environment

end AliasTaint
