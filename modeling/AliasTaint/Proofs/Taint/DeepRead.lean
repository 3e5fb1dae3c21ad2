import AliasTaint.Proofs.PointsTo.Edges
import AliasTaint.Proofs.Taint.Cross
import AliasTaint.Taint.DeepRead

/-!
# What deep reads show

A deep read follows every alias edge of the root of a location.  It shows at a path the join of what
the edges bring there: an edge that starts at a beginning of the path brings the taint of its target,
crossed over the edge, at the rest of the path.  The taint of a target is read from the environment,
and deeply as well if there are hops left.

The edges are followed one after the other, each by a weak write into the tree made so far.  What one
write adds is known at every path, so by induction on the edges all of them add what they bring.
Nothing is asked of the aliases: an edge may be ill-formed, and the targets may lead back to the root.
-/

namespace AliasTaint

open Domain

variable {heuristics : Heuristics}

/-! ## Edges of an alias map -/

/-- The alias edges of a root, none if it has no points-to tree. -/
def AliasMap.edgesOf (aliases : AliasMap heuristics) (root : RootId) :
    List (AliasEdge heuristics) :=
  match aliases.get? root with
  | some tree => tree.aliasEdges
  | none => []

theorem AliasMap.mem_edgesOf_iff {aliases : AliasMap heuristics} {root : RootId}
    {edge : AliasEdge heuristics} :
    edge ∈ aliases.edgesOf root ↔
      ∃ tree, aliases.get? root = some tree ∧
        (tree.targetsAt edge.path).targets.binding? edge.target = some edge.properties := by
  unfold edgesOf
  cases aliases.get? root with
  | none =>
      exact iff_of_false nofun nofun
  | some tree =>
      rw [PointsToTree.mem_aliasEdges_iff, PointsToSet.mem_edges_iff]
      exact ⟨fun member => ⟨tree, rfl, member⟩, fun ⟨_, same, member⟩ => Option.some.inj same ▸ member⟩

theorem AliasMap.exists_tree_of_mem_edgesOf {aliases : AliasMap heuristics} {root : RootId}
    {edge : AliasEdge heuristics} (member : edge ∈ aliases.edgesOf root) :
    ∃ tree, (root, tree) ∈ aliases.trees.entries ∧ edge ∈ tree.aliasEdges := by
  unfold edgesOf at member
  cases found : aliases.get? root with
  | none =>
      rw [found] at member
      exact nomatch member
  | some tree =>
      rw [found] at member
      exact ⟨tree, Entries.mem_of_lookup found, member⟩

/-- Stamping the features of the edges does not lead out of a kind of feature sets. -/
def AliasMap.Admits (GoodFeatures : FeatureSet → Prop) (aliases : AliasMap heuristics) : Prop :=
  ∀ root, ∀ edge ∈ aliases.edgesOf root, FeatureSet.Admits GoodFeatures edge.properties.features

theorem AliasMap.admits_true (aliases : AliasMap heuristics) : aliases.Admits fun _ => True :=
  fun _ edge _ => FeatureSet.admits_true edge.properties.features

/-- The taint that an edge brings to the path where it starts. -/
def AliasEdge.brings (taintOf : Location → TaintTree heuristics) (edge : AliasEdge heuristics) :
    TaintTree heuristics :=
  (taintOf edge.target).cross edge.properties

namespace AliasEdge

/-- What edges bring to a path, from each edge that starts at a beginning of it. -/
def shown (taintOf : Location → TaintTree heuristics) (edges : List (AliasEdge heuristics))
    (path : Path) : List (Taint heuristics) :=
  (edges.filter fun edge => edge.path.isPrefixOf path).map fun edge =>
    (edge.brings taintOf).view (path.drop edge.path.length)

theorem forall_mem_shown_iff {taintOf : Location → TaintTree heuristics}
    {edges : List (AliasEdge heuristics)} {path : Path} {Inside : Taint heuristics → Prop} :
    (∀ taint ∈ shown taintOf edges path, Inside taint) ↔
      ∀ edge ∈ edges, ∀ rest, edge.path ++ rest = path →
        Inside ((edge.brings taintOf).view rest) := by
  simp only [shown, List.forall_mem_map, List.mem_filter, List.isPrefixOf_iff_prefix, and_imp]
  refine forall₂_congr fun edge _ => ?_
  constructor
  · rintro inside rest rfl
    have atRest := inside (List.prefix_append _ _)
    rwa [List.drop_left] at atRest
  · rintro inside ⟨rest, rfl⟩
    rw [List.drop_left]
    exact inside rest rfl

end AliasEdge

namespace TaintTree

/-- Adds what an edge brings. -/
def follow (taintOf : Location → TaintTree heuristics) (current : TaintTree heuristics)
    (edge : AliasEdge heuristics) : TaintTree heuristics :=
  current.writeTree edge.path (edge.brings taintOf) .weak

section Following

variable {GoodFeatures : FeatureSet → Prop} [SemilatticeOn GoodFeatures]
  (admitsMark : FeatureSet.Admits GoodFeatures (.ofMay [.viaCollapse]))
  {taintOf : Location → TaintTree heuristics}
  (taintStores : ∀ target, (taintOf target).tree.Stores (Taint.Whole GoodFeatures))

include admitsMark taintStores

theorem stores_brings {edge : AliasEdge heuristics}
    (admits : FeatureSet.Admits GoodFeatures edge.properties.features) :
    (edge.brings taintOf).tree.Stores (Taint.Whole GoodFeatures) :=
  stores_cross admitsMark (taintStores edge.target) admits

theorem stores_foldl_follow {edges : List (AliasEdge heuristics)}
    (admits : ∀ edge ∈ edges, FeatureSet.Admits GoodFeatures edge.properties.features)
    {start : TaintTree heuristics} (startStores : start.tree.Stores (Taint.Whole GoodFeatures)) :
    (edges.foldl (follow taintOf) start).tree.Stores (Taint.Whole GoodFeatures) := by
  induction edges generalizing start with
  | nil =>
      exact startStores
  | cons edge rest inductionHypothesis =>
      obtain ⟨edgeAdmits, restAdmits⟩ := List.forall_mem_cons.mp admits
      exact inductionHypothesis restAdmits (stores_writeTree startStores
        (stores_brings admitsMark taintStores edgeAdmits) edge.path .weak)

/-- Following edges adds to a path what each of them brings there. -/
theorem inside_view_foldl_follow_iff {Inside : Taint heuristics → Prop}
    (ideal : Ideal (Taint.Whole GoodFeatures) Inside) {edges : List (AliasEdge heuristics)}
    (admits : ∀ edge ∈ edges, FeatureSet.Admits GoodFeatures edge.properties.features)
    {start : TaintTree heuristics} (startStores : start.tree.Stores (Taint.Whole GoodFeatures))
    (path : Path) :
    Inside ((edges.foldl (follow taintOf) start).view path) ↔
      Inside (start.view path) ∧
        ∀ edge ∈ edges, ∀ rest, edge.path ++ rest = path →
          Inside ((edge.brings taintOf).view rest) := by
  induction edges generalizing start with
  | nil =>
      exact (and_iff_left nofun).symm
  | cons edge rest inductionHypothesis =>
      obtain ⟨edgeAdmits, restAdmits⟩ := List.forall_mem_cons.mp admits
      have bringsStores := stores_brings admitsMark taintStores edgeAdmits
      have followStores : (follow taintOf start edge).tree.Stores (Taint.Whole GoodFeatures) :=
        stores_writeTree startStores bringsStores edge.path .weak
      have step := inside_view_writeTree_weak_iff ideal startStores bringsStores edge.path path
      rw [List.foldl_cons, inductionHypothesis restAdmits followStores, List.forall_mem_cons,
        ← and_assoc]
      exact and_congr_left' step

end Following

theorem view_top (path : Path) : (top : TaintTree heuristics).view path = Taint.top :=
  have formed : (Taint.top : Taint heuristics).WellFormed := trivial
  Node.view_leaf formed path

theorem wellFormed_top : (top : TaintTree heuristics).WellFormed :=
  Node.stores_leaf trivial

end TaintTree

/-! ## Reads -/

namespace Environment

/-- All taint trees are well-formed. -/
def WellFormed (environment : Environment heuristics) : Prop :=
  ∀ entry ∈ environment.trees.bindings, entry.2.WellFormed

instance : DecidablePred (@WellFormed heuristics) := fun environment =>
  inferInstanceAs (Decidable (∀ entry ∈ environment.trees.bindings, _))

/-- The tree of a root: bottom if the root is not bound, and top in the top environment. -/
def treeOf (environment : Environment heuristics) (root : RootId) : TaintTree heuristics :=
  environment.trees.get root

theorem treeOf_top (root : RootId) : (mk .top : Environment heuristics).treeOf root = .top :=
  rfl

theorem treeOf_sparse (map : SortedMap RootId (TaintTree heuristics)) (root : RootId) :
    (mk (.sparse map)).treeOf root = (map.get? root).getD .bottom :=
  rfl

theorem read_eq_read_treeOf (environment : Environment heuristics) (location : Location) :
    environment.read location = (environment.treeOf location.root).read location.path := by
  obtain ⟨trees⟩ := environment
  cases trees with
  | top =>
      cases location.path <;> rfl
  | sparse map =>
      simp only [read, treeOf, Partition.get]
      cases map.get? location.root with
      | some tree =>
          rfl
      | none =>
          cases location.path <;> rfl

theorem wellFormed_treeOf {environment : Environment heuristics} (formed : environment.WellFormed)
    (root : RootId) : (environment.treeOf root).WellFormed := by
  obtain ⟨trees⟩ := environment
  cases trees with
  | top =>
      exact TaintTree.wellFormed_top
  | sparse map =>
      simp only [treeOf, Partition.get]
      cases found : map.get? root with
      | some tree =>
          exact formed (root, tree) (Entries.mem_of_lookup found)
      | none =>
          exact TaintTree.stores_bottom

section Reads

variable {environment : Environment heuristics} {location : Location}
  (formed : (environment.treeOf location.root).WellFormed)

include formed

theorem wellFormed_read_of_treeOf : (environment.read location).WellFormed := by
  rw [read_eq_read_treeOf]
  exact TaintTree.stores_read formed location.path

theorem view_read (below : Path) :
    (environment.read location).view below =
      (environment.treeOf location.root).view (location.path ++ below) := by
  rw [read_eq_read_treeOf]
  exact TaintTree.view_read formed location.path below

end Reads

theorem wellFormed_read {environment : Environment heuristics} (formed : environment.WellFormed)
    (location : Location) : (environment.read location).WellFormed :=
  wellFormed_read_of_treeOf (wellFormed_treeOf formed location.root)

theorem stores_whole_read {environment : Environment heuristics} (formed : environment.WellFormed)
    (location : Location) :
    (environment.read location).tree.Stores (Taint.Whole fun _ => True) :=
  fun stored member => (wellFormed_read formed location stored member).whole

/-! ## Deep reads -/

/-- The taint of a target when there are hops left after the one that led there. -/
def targetTaint (environment : Environment heuristics) (aliases : AliasMap heuristics) :
    Nat → Location → TaintTree heuristics
  | 0, target => environment.read target
  | further + 1, target =>
      (environment.read target).join (environment.deepReadHops aliases (further + 1) target)

theorem throughEdges_eq_foldl (tree : PointsToTree heuristics)
    (taintOf : Location → TaintTree heuristics) :
    throughEdges tree taintOf = tree.aliasEdges.foldl (TaintTree.follow taintOf) .bottom := by
  simp only [throughEdges, PointsToTree.aliasEdges, List.foldl_flatMap, List.foldl_map]
  rfl

theorem deepReadHops_succ (environment : Environment heuristics) (aliases : AliasMap heuristics)
    (hops : Nat) (location : Location) :
    environment.deepReadHops aliases (hops + 1) location =
      ((aliases.edgesOf location.root).foldl
        (TaintTree.follow (environment.targetTaint aliases hops)) .bottom).read location.path := by
  unfold AliasMap.edgesOf
  rw [deepReadHops]
  cases aliases.get? location.root with
  | none =>
      cases location.path <;> rfl
  | some tree =>
      simp only [throughEdges_eq_foldl]
      refine congrArg (fun taintOf =>
        (tree.aliasEdges.foldl (TaintTree.follow taintOf) .bottom).read location.path) ?_
      funext target
      cases hops <;> rfl

section Stored

variable {GoodFeatures : FeatureSet → Prop} [SemilatticeOn GoodFeatures]
  (admitsMark : FeatureSet.Admits GoodFeatures (.ofMay [.viaCollapse]))
  {environment : Environment heuristics}
  (reads : ∀ location, (environment.read location).tree.Stores (Taint.Whole GoodFeatures))
  {aliases : AliasMap heuristics} (admits : aliases.Admits GoodFeatures)

include reads

omit admitsMark in
theorem stores_targetTaint_of_deepReadHops {hops : Nat}
    (deepReads : ∀ location,
      (environment.deepReadHops aliases hops location).tree.Stores (Taint.Whole GoodFeatures))
    (target : Location) :
    (environment.targetTaint aliases hops target).tree.Stores (Taint.Whole GoodFeatures) := by
  cases hops with
  | zero =>
      exact reads target
  | succ further =>
      exact TaintTree.stores_join (reads target) (deepReads target)

include admitsMark admits

theorem stores_deepReadHops (hops : Nat) (location : Location) :
    (environment.deepReadHops aliases hops location).tree.Stores (Taint.Whole GoodFeatures) := by
  induction hops generalizing location with
  | zero =>
      exact reads location
  | succ hops inductionHypothesis =>
      have targetStores := stores_targetTaint_of_deepReadHops reads inductionHypothesis
      rw [deepReadHops_succ]
      exact TaintTree.stores_read (TaintTree.stores_foldl_follow admitsMark targetStores
        (admits location.root) TaintTree.stores_bottom) location.path

theorem stores_targetTaint (hops : Nat) (target : Location) :
    (environment.targetTaint aliases hops target).tree.Stores (Taint.Whole GoodFeatures) :=
  stores_targetTaint_of_deepReadHops reads (stores_deepReadHops admitsMark reads admits hops) target

/-- A deep read is inside an ideal if all that the edges bring is. -/
theorem inside_view_deepReadHops_iff {Inside : Taint heuristics → Prop}
    (ideal : Ideal (Taint.Whole GoodFeatures) Inside)
    (hops : Nat) (location : Location) (path : Path) :
    Inside ((environment.deepReadHops aliases (hops + 1) location).view path) ↔
      ∀ edge ∈ aliases.edgesOf location.root,
        ∀ rest, edge.path ++ rest = location.path ++ path →
          Inside ((edge.brings (environment.targetTaint aliases hops)).view rest) := by
  have targetStores := stores_targetTaint admitsMark reads admits hops
  have followed := TaintTree.stores_foldl_follow admitsMark targetStores (admits location.root)
    TaintTree.stores_bottom
  rw [deepReadHops_succ, TaintTree.view_read followed,
    TaintTree.inside_view_foldl_follow_iff admitsMark targetStores ideal (admits location.root)
      TaintTree.stores_bottom]
  exact and_iff_right (TaintTree.inside_view_bottom ideal _)

end Stored

section Formed

variable {environment : Environment heuristics} (formed : environment.WellFormed)
  (aliases : AliasMap heuristics)

include formed

theorem stores_whole_deepReadHops (hops : Nat) (location : Location) :
    (environment.deepReadHops aliases hops location).tree.Stores (Taint.Whole fun _ => True) :=
  stores_deepReadHops (FeatureSet.admits_true _) (stores_whole_read formed) aliases.admits_true hops
    location

theorem stores_whole_targetTaint (hops : Nat) (target : Location) :
    (environment.targetTaint aliases hops target).tree.Stores (Taint.Whole fun _ => True) :=
  stores_targetTaint (FeatureSet.admits_true _) (stores_whole_read formed) aliases.admits_true hops
    target

theorem stores_whole_brings (hops : Nat) (edge : AliasEdge heuristics) :
    (edge.brings (environment.targetTaint aliases hops)).tree.Stores (Taint.Whole fun _ => True) :=
  TaintTree.stores_brings (FeatureSet.admits_true _) (stores_whole_targetTaint formed aliases hops)
    (FeatureSet.admits_true _)

/-- Whatever the features of the aliases are, if the taint of the environment is well-formed. -/
theorem inside_view_deepReadHops_iff_of_wellFormed {Inside : Taint heuristics → Prop}
    (ideal : Ideal (Taint.Whole fun _ => True) Inside)
    (hops : Nat) (location : Location) (path : Path) :
    Inside ((environment.deepReadHops aliases (hops + 1) location).view path) ↔
      ∀ edge ∈ aliases.edgesOf location.root,
        ∀ rest, edge.path ++ rest = location.path ++ path →
          Inside ((edge.brings (environment.targetTaint aliases hops)).view rest) :=
  inside_view_deepReadHops_iff (FeatureSet.admits_true _) (stores_whole_read formed)
    aliases.admits_true ideal hops location path

end Formed

/-- A deep read shows at a path the join of what every alias edge brings there that starts at a
beginning of the path.  A root that has no points-to tree has no edges, and shows nothing. -/
theorem view_deepReadHops_eq_joinAll
    {environment : Environment heuristics} (formed : environment.WellFormed)
    (aliases : AliasMap heuristics) (hops : Nat) (location : Location) (path : Path) :
    (environment.deepReadHops aliases (hops + 1) location).view path =
        joinAll (((aliases.edgesOf location.root).filter
            fun edge => edge.path.isPrefixOf (location.path ++ path)).map
          fun edge => ((environment.targetTaint aliases hops edge.target).cross
            edge.properties).view ((location.path ++ path).drop edge.path.length)) ∧
      (∀ edge, edge ∈ aliases.edgesOf location.root ↔
        ∃ tree, aliases.get? location.root = some tree ∧
          (tree.targetsAt edge.path).targets.binding? edge.target = some edge.properties) ∧
      (aliases.get? location.root = none →
        (environment.deepReadHops aliases (hops + 1) location).view path = Domain.bottom) := by
  have admitsMark := FeatureSet.admits_true (.ofMay [.viaCollapse])
  have admits := aliases.admits_true
  have reads := stores_whole_read formed
  have targetStores := stores_targetTaint admitsMark reads admits hops
  have deepStores := stores_deepReadHops admitsMark reads admits (hops + 1) location
  have goodShown : ∀ taint ∈ AliasEdge.shown (environment.targetTaint aliases hops)
      (aliases.edgesOf location.root) (location.path ++ path), taint.Whole fun _ => True := by
    rw [AliasEdge.forall_mem_shown_iff]
    intro edge member rest _
    exact TaintTree.good_view
      (TaintTree.stores_brings admitsMark targetStores (admits location.root edge member)) rest
  have joined : (environment.deepReadHops aliases (hops + 1) location).view path =
      joinAll (AliasEdge.shown (environment.targetTaint aliases hops)
        (aliases.edgesOf location.root) (location.path ++ path)) := by
    refine SemilatticeOn.eq_of_leq_iff (TaintTree.good_view deepStores path)
      (good_joinAll goodShown) ?_
    intro upper goodUpper
    have ideal := ideal_leq goodUpper
    rw [inside_view_deepReadHops_iff admitsMark reads admits ideal, ideal.joinAll_iff goodShown,
      AliasEdge.forall_mem_shown_iff]
  refine ⟨joined, fun _ => AliasMap.mem_edgesOf_iff, ?_⟩
  intro absent
  rw [joined, AliasMap.edgesOf, absent]
  rfl

/-- Taint of one root. -/
def oneTainted : Environment .standard :=
  ⟨.sparse ((∅ : SortedMap RootId (TaintTree .standard)).insert ⟨1⟩
    (.leaf (.ofKind ⟨"source"⟩)))⟩

/-- A root that may stand for itself, and for another root behind an edge that collapses. -/
def selfAliases : AliasMap .standard :=
  ⟨(∅ : SortedMap RootId (PointsToTree .standard)).insert ⟨0⟩ twoTargets⟩

/-- Two hops from a root that leads back to itself; a root without aliases shows nothing. -/
theorem view_deepReadHops_eq_joinAll_cyclic :
    oneTainted.WellFormed ∧
    (oneTainted.deepReadHops selfAliases 2 ⟨⟨0⟩, []⟩).view [.anyIndex] =
      joinAll (((selfAliases.edgesOf ⟨0⟩).filter
          fun edge => edge.path.isPrefixOf [.anyIndex]).map
        fun edge => ((oneTainted.targetTaint selfAliases 1 edge.target).cross
          edge.properties).view ([PathElement.anyIndex].drop edge.path.length)) ∧
    ((oneTainted.deepReadHops selfAliases 2 ⟨⟨0⟩, []⟩).view [.anyIndex]).has ⟨"source"⟩ ∧
    (oneTainted.deepReadHops selfAliases 2 ⟨⟨1⟩, []⟩).view [.anyIndex] = Domain.bottom := by
  have formed : oneTainted.WellFormed := of_decide_eq_true (by cbv)
  have unbound : selfAliases.get? ⟨1⟩ = none := by cbv
  exact ⟨formed, (view_deepReadHops_eq_joinAll formed selfAliases 1 ⟨⟨0⟩, []⟩ [.anyIndex]).1,
    by cbv, (view_deepReadHops_eq_joinAll formed selfAliases 1 ⟨⟨1⟩, []⟩ [.anyIndex]).2.2 unbound⟩

end Environment

end AliasTaint
