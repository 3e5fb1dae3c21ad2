import AliasTaint.Proofs.Taint.DeepRead

/-!
# Deep reads grow

More taint, more aliases and more hops never lose a kind of taint in a deep read.  The taint itself
need not grow from hop to hop: a collapse acts on stored taint and marks it, so the same taint that
was found one hop later may carry other features.  What is kept from hop to hop is that a kind which
is missing at a path in the greater read is missing there in the smaller one.

In a single hop the targets are read from one environment.  There the taint grows in its full order,
if the properties of the edges are well-formed.
-/

namespace AliasTaint

open Domain

variable {heuristics : Heuristics}

namespace Taint

/-- The taint has a kind; top taint has every kind. -/
def Carries (kind : Kind) (taint : Taint heuristics) : Prop :=
  Domain.isTop taint ∨ taint.has kind

theorem carries_iff_not_lacks {kind : Kind} {taint : Taint heuristics} :
    taint.Carries kind ↔ ¬ taint.Lacks kind := by
  obtain ⟨frames⟩ := taint
  cases frames with
  | top =>
      exact iff_of_true (Or.inl rfl) nofun
  | sparse map =>
      have notTop : ¬ Domain.isTop (mk (.sparse map)) = true := nofun
      have hasFrame : (mk (.sparse map)).has kind ↔ ¬ map.get? kind = none := by
        rw [has, Partition.binding?, Option.isSome_iff_ne_none]
      exact (or_iff_right notTop).trans hasFrame

end Taint

/-! ## Greater environments and alias maps -/

namespace Environment

theorem view_treeOf_leq_of_leq {environment greater : Environment heuristics}
    (formed : environment.WellFormed) (greaterFormed : greater.WellFormed)
    (covered : Domain.leq environment greater) (root : RootId) (path : Path) :
    Domain.leq ((environment.treeOf root).view path) ((greater.treeOf root).view path) := by
  have treeFormed := wellFormed_treeOf formed root
  have greaterTreeFormed := wellFormed_treeOf greaterFormed root
  have ideal := ideal_leq (TaintTree.good_view greaterTreeFormed path)
  obtain ⟨trees⟩ := environment
  obtain ⟨greaterTrees⟩ := greater
  cases greaterTrees with
  | top =>
      rw [treeOf_top, TaintTree.view_top]
      exact Partition.leq_top _
  | sparse greaterMap =>
      cases trees with
      | top =>
          exact nomatch covered
      | sparse map =>
          simp only [treeOf_sparse] at treeFormed greaterTreeFormed ideal ⊢
          cases found : map.get? root with
          | none =>
              exact TaintTree.inside_view_bottom ideal path
          | some tree =>
              rw [found] at treeFormed
              have treeCovered :=
                List.all_eq_true.mp covered (root, tree) (Entries.mem_of_lookup found)
              cases greaterFound : greaterMap.get? root with
              | none =>
                  simp only [greaterFound] at treeCovered ideal
                  exact TaintTree.inside_view_of_isBottom ideal treeFormed treeCovered path
              | some greaterTree =>
                  rw [greaterFound] at greaterTreeFormed
                  simp only [greaterFound] at treeCovered
                  exact (TaintTree.leq_iff_view_leq treeFormed greaterTreeFormed).mp treeCovered path

theorem view_read_leq_of_leq {environment greater : Environment heuristics}
    (formed : environment.WellFormed) (greaterFormed : greater.WellFormed)
    (covered : Domain.leq environment greater) (location : Location) (path : Path) :
    Domain.leq ((environment.read location).view path) ((greater.read location).view path) := by
  rw [view_read (wellFormed_treeOf formed _), view_read (wellFormed_treeOf greaterFormed _)]
  exact view_treeOf_leq_of_leq formed greaterFormed covered location.root _

end Environment

/-- A greater alias map without top sets has a greater edge for each edge of a root. -/
theorem AliasMap.exists_edge_of_coveredBy {aliases greater : AliasMap heuristics}
    (listed : aliases.Listed) (greaterListed : greater.Listed) (covered : aliases.CoveredBy greater)
    {root : RootId} {edge : AliasEdge heuristics} (member : edge ∈ aliases.edgesOf root) :
    edge.properties.isBottom = false ∧
      ∃ properties, ⟨edge.path, edge.target, properties⟩ ∈ greater.edgesOf root ∧
        edge.properties.leq properties := by
  obtain ⟨tree, isBound, treeMember⟩ := exists_tree_of_mem_edgesOf member
  obtain ⟨greaterTree, greaterFound, treeCovered⟩ := covered (root, tree) isBound
  have greaterBound : (root, greaterTree) ∈ greater.trees.entries :=
    Entries.mem_of_lookup greaterFound
  have edgeStores : tree.tree.Stores fun set => set.targets.WellFormed fun _ => True :=
    fun stored isStored => (listed (root, tree) isBound stored isStored).2
  have filled := (PointsToTree.aliasEdge_of_stores edgeStores treeMember).1
  obtain ⟨properties, greaterMember, propertiesCovered⟩ :=
    PointsToTree.exists_aliasEdge_of_leq treeCovered (greaterListed _ greaterBound) treeMember filled
  refine ⟨filled, properties, ?_, propertiesCovered⟩
  rw [edgesOf, show greater.get? root = some greaterTree from greaterFound]
  exact greaterMember

/-! ## Kinds -/

namespace Environment

/-- No kind is missing in a tree where it is not missing in the smaller one. -/
def KeepsKind (kind : Kind) (smaller greater : TaintTree heuristics) : Prop :=
  ∀ path, (greater.view path).Lacks kind → (smaller.view path).Lacks kind

section Kinds

variable {environment greater : Environment heuristics}
  {aliases greaterAliases : AliasMap heuristics} {kind : Kind}
  (formed : environment.WellFormed) (greaterFormed : greater.WellFormed)

theorem lacks_read_of_targetTaint (formed : environment.WellFormed) {hops : Nat}
    {target : Location} {path : Path}
    (lacking : ((environment.targetTaint aliases hops target).view path).Lacks kind) :
    ((environment.read target).view path).Lacks kind := by
  cases hops with
  | zero =>
      exact lacking
  | succ further =>
      have deepReads := stores_whole_deepReadHops formed aliases (further + 1) target
      exact ((TaintTree.inside_view_join_iff (Taint.ideal_lacks kind)
        (stores_whole_read formed target) deepReads path).mp lacking).1

include formed greaterFormed

theorem keepsKind_read (covered : Domain.leq environment greater) (location : Location) :
    KeepsKind kind (environment.read location) (greater.read location) := by
  intro path lacking
  have ideal : Ideal (@Taint.WellFormed heuristics) (Taint.Lacks kind) := Taint.ideal_lacks kind
  exact ideal.of_leq (TaintTree.good_view (wellFormed_read formed location) path)
    (TaintTree.good_view (wellFormed_read greaterFormed location) path)
    (view_read_leq_of_leq formed greaterFormed covered location path) lacking

section Edges

variable (edgesCovered : ∀ {root : RootId} {edge : AliasEdge heuristics},
    edge ∈ aliases.edgesOf root →
      ∃ properties, ⟨edge.path, edge.target, properties⟩ ∈ greaterAliases.edgesOf root ∧
        edge.properties.collapseDepth.leq properties.collapseDepth)

include edgesCovered

/-- If the taint of all targets keeps a kind, then so does the deep read that leads to them. -/
theorem keepsKind_deepReadHops_of_targets {hops furtherHops : Nat}
    (targetsKeep : ∀ target, KeepsKind kind (environment.targetTaint aliases hops target)
      (greater.targetTaint greaterAliases furtherHops target))
    (location : Location) :
    KeepsKind kind (environment.deepReadHops aliases (hops + 1) location)
      (greater.deepReadHops greaterAliases (furtherHops + 1) location) := by
  intro path lacking
  rw [inside_view_deepReadHops_iff_of_wellFormed greaterFormed _ (Taint.ideal_lacks kind)]
    at lacking
  rw [inside_view_deepReadHops_iff_of_wellFormed formed _ (Taint.ideal_lacks kind)]
  intro edge member rest reached
  obtain ⟨properties, greaterMember, depthCovered⟩ := edgesCovered member
  exact TaintTree.lacks_view_cross_of_greater (FeatureSet.admits_true _)
    (stores_whole_targetTaint formed aliases hops edge.target)
    (stores_whole_targetTaint greaterFormed greaterAliases furtherHops edge.target)
    (FeatureSet.admits_true _) (FeatureSet.admits_true _)
    (targetsKeep edge.target) depthCovered (lacking _ greaterMember rest reached)

/-- By induction on the hops: a target is read, and with hops left it is read deeply as well. -/
theorem keepsKind_deepReadHops_of_edges
    (readsKeep : ∀ target, KeepsKind kind (environment.read target) (greater.read target))
    {hops furtherHops : Nat} (moreHops : hops ≤ furtherHops) (location : Location) :
    KeepsKind kind (environment.deepReadHops aliases (hops + 1) location)
      (greater.deepReadHops greaterAliases (furtherHops + 1) location) := by
  induction hops generalizing furtherHops location with
  | zero =>
      refine keepsKind_deepReadHops_of_targets formed greaterFormed edgesCovered ?_ location
      intro target path lacking
      exact readsKeep target path (lacks_read_of_targetTaint greaterFormed lacking)
  | succ hops inductionHypothesis =>
      obtain ⟨further, rfl⟩ : ∃ further, furtherHops = further + 1 :=
        ⟨furtherHops - 1, by omega⟩
      have deepKeeps (target : Location) :=
        inductionHypothesis (Nat.le_of_succ_le_succ moreHops) target
      refine keepsKind_deepReadHops_of_targets formed greaterFormed edgesCovered ?_ location
      intro target path lacking
      have deepReads := stores_whole_deepReadHops formed aliases (hops + 1) target
      have greaterDeepReads :=
        stores_whole_deepReadHops greaterFormed greaterAliases (further + 1) target
      obtain ⟨readLacks, deepLacks⟩ := (TaintTree.inside_view_join_iff (Taint.ideal_lacks kind)
        (stores_whole_read greaterFormed target) greaterDeepReads path).mp lacking
      exact (TaintTree.inside_view_join_iff (Taint.ideal_lacks kind)
        (stores_whole_read formed target) deepReads path).mpr
          ⟨readsKeep target path readLacks, deepKeeps target path deepLacks⟩

end Edges

theorem keepsKind_deepReadHops (listed : aliases.Listed) (greaterListed : greaterAliases.Listed)
    (aliasesCovered : aliases.CoveredBy greaterAliases) (covered : Domain.leq environment greater)
    {hops furtherHops : Nat} (moreHops : hops ≤ furtherHops) (location : Location) :
    KeepsKind kind (environment.deepReadHops aliases (hops + 1) location)
      (greater.deepReadHops greaterAliases (furtherHops + 1) location) := by
  refine keepsKind_deepReadHops_of_edges formed greaterFormed ?_
    (keepsKind_read formed greaterFormed covered) moreHops location
  intro root edge member
  obtain ⟨filled, properties, greaterMember, propertiesCovered⟩ :=
    AliasMap.exists_edge_of_coveredBy listed greaterListed aliasesCovered member
  exact ⟨properties, greaterMember, (EdgeProperties.parts_leq_of_leq filled propertiesCovered).2.2⟩

end Kinds

/-- Greater environments, greater aliases and more hops lose no kind of taint at any path. -/
theorem carries_deepReadHops_of_greater
    {environment greater : Environment heuristics}
    (formed : environment.WellFormed) (greaterFormed : greater.WellFormed)
    (covered : Domain.leq environment greater)
    {aliases greaterAliases : AliasMap heuristics}
    (listed : aliases.Listed) (greaterListed : greaterAliases.Listed)
    (aliasesCovered : aliases.CoveredBy greaterAliases)
    {hops furtherHops : Nat} (someHops : 1 ≤ hops) (moreHops : hops ≤ furtherHops)
    (location : Location) (path : Path) {kind : Kind}
    (carried : ((environment.deepReadHops aliases hops location).view path).Carries kind) :
    ((greater.deepReadHops greaterAliases furtherHops location).view path).Carries kind := by
  obtain ⟨hops, rfl⟩ : ∃ fewer, hops = fewer + 1 := ⟨hops - 1, by omega⟩
  obtain ⟨furtherHops, rfl⟩ : ∃ fewer, furtherHops = fewer + 1 := ⟨furtherHops - 1, by omega⟩
  rw [Taint.carries_iff_not_lacks] at carried ⊢
  intro lacking
  exact carried (keepsKind_deepReadHops formed greaterFormed listed greaterListed aliasesCovered
    covered (Nat.le_of_succ_le_succ moreHops) location path lacking)

/-- More taint of the same root. -/
def moreTainted : Environment .standard :=
  ⟨.sparse ((∅ : SortedMap RootId (TaintTree .standard)).insert ⟨1⟩ rootTaint)⟩

/-- A root that may stand for another one. -/
def oneAlias : AliasMap .standard :=
  ⟨(∅ : SortedMap RootId (PointsToTree .standard)).insert ⟨0⟩ oneTarget⟩

/-- With a further alias that leads back to the root, an edge that collapses, and two hops more. -/
theorem carries_deepReadHops_of_greater_cyclic :
    oneTainted.WellFormed ∧ moreTainted.WellFormed ∧ Domain.leq oneTainted moreTainted ∧
    oneAlias.Listed ∧ selfAliases.Listed ∧ oneAlias.CoveredBy selfAliases ∧
    ((oneTainted.deepReadHops oneAlias 1 ⟨⟨0⟩, []⟩).view [.anyIndex]).Carries ⟨"source"⟩ ∧
    ((moreTainted.deepReadHops selfAliases 3 ⟨⟨0⟩, []⟩).view [.anyIndex]).Carries ⟨"source"⟩ := by
  have formed : oneTainted.WellFormed := of_decide_eq_true (by cbv)
  have moreFormed : moreTainted.WellFormed := of_decide_eq_true (by cbv)
  have covered : Domain.leq oneTainted moreTainted := by cbv
  have oneListed : oneAlias.Listed := of_decide_eq_true (by cbv)
  have selfListed : selfAliases.Listed := of_decide_eq_true (by cbv)
  have aliasesCovered : oneAlias.CoveredBy selfAliases := of_decide_eq_true (by cbv)
  have carried :
      ((oneTainted.deepReadHops oneAlias 1 ⟨⟨0⟩, []⟩).view [.anyIndex]).Carries ⟨"source"⟩ :=
    Or.inr (by cbv)
  exact ⟨formed, moreFormed, covered, oneListed, selfListed, aliasesCovered, carried,
    carries_deepReadHops_of_greater formed moreFormed covered oneListed selfListed aliasesCovered
      (by decide) (by decide) ⟨⟨0⟩, []⟩ [.anyIndex] carried⟩

/-! ## Single hops -/

end Environment

theorem AliasMap.WellFormed.edge {aliases : AliasMap heuristics} (formed : aliases.WellFormed)
    {root : RootId} {edge : AliasEdge heuristics} (member : edge ∈ aliases.edgesOf root) :
    edge.properties.WellFormed := by
  obtain ⟨tree, isBound, treeMember⟩ := exists_tree_of_mem_edgesOf member
  exact (PointsToTree.aliasEdge_of_stores (formed (root, tree) isBound) treeMember).2

namespace Environment

/-- With greater aliases, a single hop shows greater taint. -/
theorem deepReadHops_one_leq_of_greater
    {environment : Environment heuristics} (formed : environment.WellFormed)
    {aliases greaterAliases : AliasMap heuristics}
    (listed : aliases.Listed) (greaterListed : greaterAliases.Listed)
    (aliasesFormed : aliases.WellFormed) (greaterAliasesFormed : greaterAliases.WellFormed)
    (aliasesCovered : aliases.CoveredBy greaterAliases) (location : Location) :
    (environment.deepReadHops aliases 1 location).leq
      (environment.deepReadHops greaterAliases 1 location) := by
  have admitsMark := FeatureSet.admits_of_wellFormed TaintTree.wellFormed_mark
  have admits : aliases.Admits FeatureSet.WellFormed := fun _ _ member =>
    FeatureSet.admits_of_wellFormed (aliasesFormed.edge member).features
  have greaterAdmits : greaterAliases.Admits FeatureSet.WellFormed := fun _ _ member =>
    FeatureSet.admits_of_wellFormed (greaterAliasesFormed.edge member).features
  have reads := wellFormed_read formed
  have deepFormed : (environment.deepReadHops aliases 1 location).WellFormed :=
    stores_deepReadHops admitsMark reads admits 1 location
  have greaterDeepFormed : (environment.deepReadHops greaterAliases 1 location).WellFormed :=
    stores_deepReadHops admitsMark reads greaterAdmits 1 location
  rw [TaintTree.leq_iff_view_leq deepFormed greaterDeepFormed]
  intro path
  have upperFormed := TaintTree.good_view greaterDeepFormed path
  have ideal := ideal_leq upperFormed
  have greaterShown := (inside_view_deepReadHops_iff admitsMark reads greaterAdmits ideal 0 location
    path).mp (SemilatticeOn.leq_refl upperFormed)
  refine (inside_view_deepReadHops_iff admitsMark reads admits ideal 0 location path).mpr ?_
  intro edge member rest reached
  obtain ⟨filled, properties, greaterMember, covered⟩ :=
    AliasMap.exists_edge_of_coveredBy listed greaterListed aliasesCovered member
  have edgeFormed := aliasesFormed.edge member
  have greaterEdgeFormed : properties.WellFormed := greaterAliasesFormed.edge greaterMember
  have targetFormed := reads edge.target
  -- Both edges lead to the same target, whose taint crosses the one or the other.
  have crossed := TaintTree.view_cross_leq_of_greater targetFormed edgeFormed greaterEdgeFormed
    filled covered rest
  exact SemilatticeOn.leq_trans
    (TaintTree.good_view (TaintTree.stores_cross admitsMark targetFormed
      (FeatureSet.admits_of_wellFormed edgeFormed.features)) rest)
    (TaintTree.good_view (TaintTree.stores_cross admitsMark targetFormed
      (FeatureSet.admits_of_wellFormed greaterEdgeFormed.features)) rest)
    upperFormed crossed (greaterShown _ greaterMember rest reached)

/-- The greater edge to the same target collapses. -/
theorem deepReadHops_one_leq_of_greater_cyclic :
    moreTainted.WellFormed ∧ oneAlias.Listed ∧ selfAliases.Listed ∧
    oneAlias.WellFormed ∧ selfAliases.WellFormed ∧ oneAlias.CoveredBy selfAliases ∧
    (moreTainted.deepReadHops oneAlias 1 ⟨⟨0⟩, []⟩).leq
      (moreTainted.deepReadHops selfAliases 1 ⟨⟨0⟩, []⟩) := by
  have formed : moreTainted.WellFormed := of_decide_eq_true (by cbv)
  have oneListed : oneAlias.Listed := of_decide_eq_true (by cbv)
  have selfListed : selfAliases.Listed := of_decide_eq_true (by cbv)
  have oneFormed : oneAlias.WellFormed := of_decide_eq_true (by cbv)
  have selfFormed : selfAliases.WellFormed := of_decide_eq_true (by cbv)
  have aliasesCovered : oneAlias.CoveredBy selfAliases := of_decide_eq_true (by cbv)
  exact ⟨formed, oneListed, selfListed, oneFormed, selfFormed, aliasesCovered,
    deepReadHops_one_leq_of_greater formed oneListed selfListed oneFormed selfFormed
      aliasesCovered ⟨⟨0⟩, []⟩⟩

end Environment

end AliasTaint
