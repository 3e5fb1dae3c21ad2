import AliasTaint.PointsTo.AliasMap
import AliasTaint.Proofs.Cumulative
import AliasTaint.Proofs.Tree.Meet
import AliasTaint.Proofs.Tree.Stored

/-!
# Alias edges

The alias edges of a points-to tree: a set that is stored at a path has an edge from there to each of
its targets.  Nothing is inherited in these trees, so a greater tree stores a greater set at every
path, and has a greater edge for each edge of the smaller tree, as long as no set is top.
-/

namespace AliasTaint

open Domain

variable {V : Type} [Domain V]

namespace Node

/-! ## The order without inheritance -/

section Unsunk

variable [CumulativeDomain V]

theorem shownAt_bottom (right : Option (Node V)) :
    shownAt Domain.bottom right = (right.getD bottom).value := by
  cases right with
  | none =>
      rfl
  | some node =>
      exact CumulativeDomain.bottom_join node.value

/-- If nothing sinks, the order compares the stored values path by path. -/
theorem stored_leq_of_leqUnder {left : Node V} {right : Option (Node V)}
    (holds : leqUnder (fun _ => Domain.bottom) Domain.bottom left right) (path : Path) :
    Domain.leq (left.stored path) ((right.getD bottom).stored path) := by
  induction path generalizing left right with
  | nil =>
      have covered := value_leq_of_leqUnder holds
      rwa [shownAt_bottom] at covered
  | cons label path inductionHypothesis =>
      cases left with
      | mk value children =>
          rw [leqUnder_mk, Bool.and_eq_true, leqChildren_iff, sinkIntoChild_nothing] at holds
          rw [stored, stored, childOrBottom_getD]
          cases found : (mk value children).child? label with
          | none =>
              rw [childOrBottom, found, Option.getD_none, stored_bottom]
              exact CumulativeDomain.bottom_leq _
          | some child =>
              rw [childOrBottom_of_child? found]
              exact inductionHypothesis (holds.2 (label, child) (Entries.mem_of_lookup found))

end Unsunk

end Node

variable {heuristics : Heuristics}

/-! ## Points-to sets -/

/-- The join of two edges is an edge. -/
theorem EdgeProperties.filled_join {left right : EdgeProperties heuristics}
    (filled : left.isBottom = false) (otherFilled : right.isBottom = false) :
    (left.join right).isBottom = false := by
  have parts : left.join right =
      ⟨left.positions.join right.positions, left.features.join right.features,
        left.collapseDepth.join right.collapseDepth⟩ := by
    simp [join, filled, otherFilled]
  rw [parts]
  rw [Bool.eq_false_iff] at filled ⊢
  refine mt ?_ filled
  simp only [isBottom, Bool.and_eq_true]
  refine And.imp (And.imp ?positions ?features) ?depth
  case positions =>
    have nothingFormed : (PositionSet.bottom : PositionSet heuristics).WellFormed := trivial
    rw [PositionSet.isBottom_iff, PositionSet.isBottom_iff, ← PositionSet.leq_bottom_iff,
      ← PositionSet.leq_bottom_iff, PositionSet.join_leq_iff nothingFormed]
    exact And.left
  case features =>
    rw [FeatureSet.isBottom_iff, FeatureSet.isBottom_iff, ← FeatureSet.leq_bottom_iff,
      ← FeatureSet.leq_bottom_iff, FeatureSet.join_leq_iff]
    exact And.left
  case depth =>
    exact LawfulDomain.isBottom_of_leq (LawfulDomain.leq_join_left _ _)

namespace PointsToSet

/-- The set is not top, and lists only targets that it has an edge to. -/
def Listed (set : PointsToSet heuristics) : Prop :=
  set.targets.isTop = false ∧ set.targets.WellFormed fun _ => True

instance : DecidablePred (@Listed heuristics) := fun set =>
  inferInstanceAs (Decidable (set.targets.isTop = false ∧ set.targets.WellFormed fun _ => True))

theorem mem_edges_iff {set : PointsToSet heuristics} {target : Location}
    {properties : EdgeProperties heuristics} :
    (target, properties) ∈ set.edges ↔ set.targets.binding? target = some properties := by
  obtain ⟨targets⟩ := set
  cases targets with
  | top =>
      exact iff_of_false nofun nofun
  | sparse map =>
      exact map.increasing.lookup_eq_some_iff.symm

theorem filled_of_edges {set : PointsToSet heuristics} (someEdge : set.edges ≠ []) :
    Domain.isBottom set = false := by
  obtain ⟨targets⟩ := set
  cases targets with
  | top =>
      exact absurd rfl someEdge
  | sparse map =>
      exact Bool.eq_false_iff.mpr fun isNothing => someEdge (List.isEmpty_iff.mp isNothing)

/-- A greater set that is not top has a greater edge to each target. -/
theorem exists_edge_of_leq {smaller greater : PointsToSet heuristics}
    (covered : Domain.leq smaller greater) (listed : greater.Listed)
    {target : Location} {properties : EdgeProperties heuristics}
    (member : (target, properties) ∈ smaller.edges) (filled : properties.isBottom = false) :
    ∃ greaterProperties, (target, greaterProperties) ∈ greater.edges ∧
      properties.leq greaterProperties := by
  obtain ⟨smallerTargets⟩ := smaller
  obtain ⟨greaterTargets⟩ := greater
  cases greaterTargets with
  | top =>
      cases listed.1
  | sparse greaterMap =>
      cases smallerTargets with
      | top =>
          cases covered
      | sparse smallerMap =>
          have entryCovered := List.all_eq_true.mp covered (target, properties) member
          cases found : greaterMap.get? target with
          | none =>
              simp only [found] at entryCovered
              rw [show Domain.isBottom properties = false from filled] at entryCovered
              cases entryCovered
          | some greaterProperties =>
              simp only [found] at entryCovered
              exact ⟨greaterProperties, mem_edges_iff.mpr found, entryCovered⟩

end PointsToSet

/-! ## Points-to trees -/

/-- An edge from a path of a root to a location that it may stand for. -/
structure AliasEdge (heuristics : Heuristics) where
  path : Path
  target : Location
  properties : EdgeProperties heuristics

namespace PointsToTree

/-- The alias edges of a points-to tree, path by path. -/
def aliasEdges (tree : PointsToTree heuristics) : List (AliasEdge heuristics) :=
  tree.visit.flatMap fun stored =>
    stored.2.edges.map fun edge => ⟨stored.1, edge.1, edge.2⟩

/-- All stored points-to sets are listed. -/
def Listed (tree : PointsToTree heuristics) : Prop :=
  tree.tree.Stores PointsToSet.Listed

instance : DecidablePred (@Listed heuristics) := fun tree =>
  inferInstanceAs (Decidable (tree.tree.Stores PointsToSet.Listed))

/-- The set that a tree stores at a path. -/
def targetsAt (tree : PointsToTree heuristics) (path : Path) : PointsToSet heuristics :=
  tree.tree.node.stored path

theorem mem_visit_iff {tree : PointsToTree heuristics} {path : Path}
    {set : PointsToSet heuristics} :
    (path, set) ∈ tree.visit ↔ tree.targetsAt path = set ∧ Domain.isBottom set = false :=
  Node.mem_visit_iff rfl tree.tree.ordered

theorem mem_aliasEdges_iff {tree : PointsToTree heuristics} {edge : AliasEdge heuristics} :
    edge ∈ tree.aliasEdges ↔ (edge.target, edge.properties) ∈ (tree.targetsAt edge.path).edges := by
  simp only [aliasEdges, List.mem_flatMap, List.mem_map]
  constructor
  · rintro ⟨⟨path, set⟩, isVisited, ⟨target, properties⟩, member, rfl⟩
    rw [(mem_visit_iff.mp isVisited).1]
    exact member
  · intro member
    have filled := PointsToSet.filled_of_edges (List.ne_nil_of_mem member)
    exact ⟨(edge.path, tree.targetsAt edge.path), mem_visit_iff.mpr ⟨rfl, filled⟩, _, member, rfl⟩

/-- A greater tree without top sets has a greater edge between the same places. -/
theorem exists_aliasEdge_of_leq {smaller greater : PointsToTree heuristics}
    (covered : smaller.leq greater) (listed : greater.Listed)
    {edge : AliasEdge heuristics} (member : edge ∈ smaller.aliasEdges)
    (filled : edge.properties.isBottom = false) :
    ∃ properties, ⟨edge.path, edge.target, properties⟩ ∈ greater.aliasEdges ∧
      edge.properties.leq properties := by
  have setCovered : Domain.leq (smaller.targetsAt edge.path) (greater.targetsAt edge.path) :=
    Node.stored_leq_of_leqUnder covered edge.path
  have setListed : (greater.targetsAt edge.path).Listed :=
    Node.Stores.stored ⟨rfl, nofun⟩ listed edge.path
  obtain ⟨properties, greaterMember, propertiesCovered⟩ :=
    PointsToSet.exists_edge_of_leq setCovered setListed (mem_aliasEdges_iff.mp member) filled
  exact ⟨properties, mem_aliasEdges_iff.mpr greaterMember, propertiesCovered⟩

/-- The properties of an edge are of a kind if all stored sets hold only such properties. -/
theorem aliasEdge_of_stores {GoodEdge : EdgeProperties heuristics → Prop}
    {tree : PointsToTree heuristics}
    (stores : tree.tree.Stores fun set => set.targets.WellFormed GoodEdge)
    {edge : AliasEdge heuristics} (member : edge ∈ tree.aliasEdges) :
    edge.properties.isBottom = false ∧ GoodEdge edge.properties := by
  have emptyStores : (PointsToSet.bottom : PointsToSet heuristics).targets.WellFormed GoodEdge := by
    intro entry member
    exact nomatch member
  have setStores : (tree.targetsAt edge.path).targets.WellFormed GoodEdge := by
    refine Node.Stores.stored ?_ stores edge.path
    exact emptyStores
  rw [mem_aliasEdges_iff] at member
  generalize tree.targetsAt edge.path = set at member setStores
  obtain ⟨targets⟩ := set
  cases targets with
  | top =>
      exact nomatch member
  | sparse map =>
      exact setStores (edge.target, edge.properties) member

end PointsToTree

/-! ## Alias maps -/

namespace AliasMap

/-- No points-to set is top, and none lists a target that it has no edge to. -/
def Listed (aliases : AliasMap heuristics) : Prop :=
  ∀ entry ∈ aliases.trees.entries, entry.2.Listed

/-- All points-to trees are well-formed. -/
def WellFormed (aliases : AliasMap heuristics) : Prop :=
  ∀ entry ∈ aliases.trees.entries, entry.2.WellFormed

/-- Every bound root is bound to a greater tree in the other map. -/
def CoveredBy (aliases greater : AliasMap heuristics) : Prop :=
  ∀ entry ∈ aliases.trees.entries, ∃ tree ∈ greater.get? entry.1, entry.2.leq tree

instance : DecidablePred (@Listed heuristics) := fun aliases =>
  inferInstanceAs (Decidable (∀ entry ∈ aliases.trees.entries, _))

instance : DecidablePred (@WellFormed heuristics) := fun aliases =>
  inferInstanceAs (Decidable (∀ entry ∈ aliases.trees.entries, _))

instance (aliases greater : AliasMap heuristics) : Decidable (aliases.CoveredBy greater) :=
  inferInstanceAs (Decidable (∀ entry ∈ aliases.trees.entries, ∃ tree ∈ greater.get? entry.1, _))

end AliasMap

end AliasTaint
