import AliasTaint.Proofs.Taint.DeepRead
import AliasTaint.Proofs.Tree.Stored

/-!
# Widening of taint trees

Taint is widened by joining it, so widening differs from the join of two trees only where the join is
too high: then everything deeper than the greatest height is moved up to it and marked.  Marking gives
more taint, so the result still covers both trees.

At every path a widened tree shows what the joined tree would show if it were collapsed, whether or
not it was: a tree that is not too high stores nothing that could be moved.

An environment is widened root by root.  It covers both sides even though a tree that is bound on one
side only is taken over as it is.
-/

namespace AliasTaint

open Domain

/-! ## Widening by joins -/

/-- Where values are widened by joining them, so are trees before they are collapsed. -/
theorem Node.merge_widen_eq_join {V : Type} [Domain V] (sink : V → V)
    (sameWiden : ∀ left right : V, widen left right = join left right)
    (inherited : Inherited V) {left right : Node V}
    (leftOrdered : left.Ordered) (rightOrdered : right.Ordered) :
    merge sink .widen inherited left right = merge sink .join inherited left right := by
  induction left, right using Node.induction₂ generalizing inherited with
  | step left right inductionHypothesis =>
      have sameStore : MergeOp.widen.store inherited left.value right.value =
          MergeOp.join.store inherited left.value right.value := by
        simp only [MergeOp.store, MergeOp.combine, sameWiden]
        rfl
      have sameInherited : MergeOp.widen.inherit sink inherited left.value right.value =
          MergeOp.join.inherit sink inherited left.value right.value := by
        simp only [MergeOp.inherit, sameStore]
        rfl
      refine eq_of_child?_eq (Ordered.merge sink .widen _ _ _ leftOrdered rightOrdered)
        (Ordered.merge sink .join _ _ _ leftOrdered rightOrdered) ?_ ?_
      · rw [value_merge, value_merge, sameStore]
      · intro label
        rw [child?_merge sink .widen inherited leftOrdered rightOrdered,
          child?_merge sink .join inherited leftOrdered rightOrdered, sameInherited]
        split
        · rename_i isBound
          have mergedBelow := inductionHypothesis label (by simpa using isBound)
            (MergeOp.join.inherit sink inherited left.value right.value)
            (leftOrdered.childOrBottom label) (rightOrdered.childOrBottom label)
          unfold mergedChild?
          rw [mergedBelow]
          rfl
        · rfl

variable {heuristics : Heuristics}

namespace TaintTree

/-! ## Stored taint -/

/-- The taint stored at a path, without what the ancestors show. -/
def stored (tree : TaintTree heuristics) (path : Path) : Taint heuristics :=
  tree.tree.node.stored path

theorem WellFormed.stored {tree : TaintTree heuristics} (formed : tree.WellFormed) (path : Path) :
    (tree.stored path).WellFormed :=
  Node.Stores.stored JoinClosed.bottom formed path

theorem stored_join_eq {left right : TaintTree heuristics}
    (leftFormed : left.WellFormed) (rightFormed : right.WellFormed) (path : Path) :
    (left.join right).stored path = Domain.bottom ∨
      (left.join right).stored path = Domain.join (left.stored path) (right.stored path) :=
  Node.stored_merge_eq policy.sink (Or.inl rfl) .nothing left.tree.ordered right.tree.ordered
    leftFormed rightFormed path

theorem stored_leq_view (tree : TaintTree heuristics) {above path : Path}
    (isBeginning : above <+: path) : Domain.leq (tree.stored above) (tree.view path) :=
  Node.stored_leq_view_of_beginning tree.tree.node isBeginning

/-! ## Widening by collapse -/

theorem widen_eq (left right : TaintTree heuristics) :
    left.widen right =
      if heuristics.maxTreeHeight.toNat < (left.join right).height then
        (left.join right).collapseDeeperThan heuristics.maxTreeHeight.toNat
      else
        left.join right := by
  have sameMerge : left.tree.merge policy.sink .widen right.tree =
      left.tree.join policy.sink right.tree :=
    Tree.ext_node (Node.merge_widen_eq_join policy.sink (fun _ _ => rfl) .nothing
      left.tree.ordered right.tree.ordered)
  have unfolded : left.widen right =
      ⟨Policy.certain
        (if heuristics.maxTreeHeight.toNat < (left.tree.merge policy.sink .widen right.tree).height
          then (left.tree.merge policy.sink .widen right.tree).collapseWith policy.sink
            heuristics.maxTreeHeight.toNat policy.onWidening
          else .ok (left.tree.merge policy.sink .widen right.tree))⟩ := rfl
  have sameHeight : (left.join right).height =
      (left.tree.merge policy.sink .widen right.tree).height := by
    rw [sameMerge]
    rfl
  rw [unfolded, sameHeight]
  split
  · rw [sameMerge]
    rfl
  · rw [sameMerge]
    rfl

theorem height_collapseDeeperThan_le (tree : TaintTree heuristics) (height : Nat) :
    (tree.collapseDeeperThan height).height ≤ height := by
  have flattened := Node.Ordered.flattenAt markCollapsed tree.tree.node height tree.tree.ordered
  exact Nat.le_trans (Node.height_normalize_le policy.sink flattened)
    (Node.height_flattenAt_le markCollapsed tree.tree.node height)

theorem height_widen_le (left right : TaintTree heuristics) :
    (left.widen right).height ≤ heuristics.maxTreeHeight.toNat := by
  rw [widen_eq]
  split
  · exact height_collapseDeeperThan_le _ _
  · rename_i low
    exact Nat.le_of_not_lt low

/-! ## What a widened tree shows -/

section Widening

variable {GoodFeatures : FeatureSet → Prop} [SemilatticeOn GoodFeatures]
  (admitsMark : FeatureSet.Admits GoodFeatures (.ofMay [.viaCollapse]))
  {left right : TaintTree heuristics}
  (leftStores : left.tree.Stores (Taint.Whole GoodFeatures))
  (rightStores : right.tree.Stores (Taint.Whole GoodFeatures))

include admitsMark leftStores rightStores

theorem stores_widen : (left.widen right).tree.Stores (Taint.Whole GoodFeatures) := by
  have joinStores := stores_join leftStores rightStores
  rw [widen_eq]
  split
  · exact stores_collapseDeeperThan admitsMark joinStores _
  · exact joinStores

/-- A widened tree shows what the join shows when it is collapsed at the greatest height. -/
theorem inside_view_widen_iff {Inside : Taint heuristics → Prop}
    (ideal : Ideal (Taint.Whole GoodFeatures) Inside) (path : Path) :
    Inside ((left.widen right).view path) ↔
      (left.join right).tree.node.AllHoisted Inside (fun taint => Inside (markCollapsed taint))
        heuristics.maxTreeHeight.toNat path := by
  have joinStores := stores_join leftStores rightStores
  refine (Node.inside_view_iff ideal (stores_widen admitsMark leftStores rightStores) path).trans ?_
  rw [widen_eq]
  split
  · exact allAlong_collapseDeeperThan_iff admitsMark joinStores ideal _ path
  · rename_i low
    have marks : JoinMapOn (@Taint.Whole heuristics GoodFeatures) (Taint.Whole GoodFeatures)
        markCollapsed := joinMapOn_markCollapsed admitsMark
    symm
    apply Node.allHoisted_iff_of_height_le ideal.bottom _ (left.join right).tree.ordered
      (Nat.le_of_not_lt low)
    exact (ideal.comap marks).bottom

theorem view_join_leq_widen (path : Path) :
    Domain.leq ((left.join right).view path) ((left.widen right).view path) := by
  have joinStores := stores_join leftStores rightStores
  have wholeWidened := good_view (stores_widen admitsMark leftStores rightStores) path
  have ideal := ideal_leq wholeWidened
  have marks : JoinMapOn (@Taint.Whole heuristics GoodFeatures) (Taint.Whole GoodFeatures)
      markCollapsed := joinMapOn_markCollapsed admitsMark
  have hoisted := (inside_view_widen_iff admitsMark leftStores rightStores ideal path).mp
    (SemilatticeOn.leq_refl wholeWidened)
  have unmarked (taint : Taint heuristics) (whole : taint.Whole GoodFeatures)
      (markedShown : Domain.leq (markCollapsed taint) ((left.widen right).view path)) :
      Domain.leq taint ((left.widen right).view path) :=
    SemilatticeOn.leq_trans whole (marks.good whole) wholeWidened
      (leq_markCollapsed admitsMark whole) markedShown
  exact (Node.inside_view_iff ideal joinStores path).mpr
    (hoisted.allAlong unmarked (ideal.comap marks).bottom joinStores)

theorem views_leq_widen (path : Path) :
    Domain.leq (left.view path) ((left.widen right).view path) ∧
      Domain.leq (right.view path) ((left.widen right).view path) :=
  (inside_view_join_iff
    (ideal_leq (good_view (stores_widen admitsMark leftStores rightStores) path))
    leftStores rightStores path).mp (view_join_leq_widen admitsMark leftStores rightStores path)

end Widening

theorem admits_mark : FeatureSet.Admits FeatureSet.WellFormed (.ofMay [.viaCollapse]) :=
  FeatureSet.admits_of_wellFormed wellFormed_mark

theorem joinMapOn_mark :
    JoinMapOn (@Taint.WellFormed heuristics) Taint.WellFormed markCollapsed :=
  joinMapOn_markCollapsed admits_mark

theorem leq_refl {tree : TaintTree heuristics} (formed : tree.WellFormed) : tree.leq tree :=
  (leq_iff_view_leq formed formed).mpr fun path =>
    SemilatticeOn.leq_refl (good_view formed path)

theorem wellFormed_widen {left right : TaintTree heuristics}
    (leftFormed : left.WellFormed) (rightFormed : right.WellFormed) :
    (left.widen right).WellFormed :=
  stores_widen admits_mark leftFormed rightFormed

theorem leq_widen {left right : TaintTree heuristics}
    (leftFormed : left.WellFormed) (rightFormed : right.WellFormed) :
    left.leq (left.widen right) ∧ right.leq (left.widen right) := by
  have widenedFormed := wellFormed_widen leftFormed rightFormed
  rw [leq_iff_view_leq leftFormed widenedFormed, leq_iff_view_leq rightFormed widenedFormed,
    ← forall_and]
  exact views_leq_widen admits_mark leftFormed rightFormed

end TaintTree

/-! ## Environments -/

theorem Environment.leq_widen {left right : Environment heuristics}
    (leftFormed : left.WellFormed) (rightFormed : right.WellFormed) :
    Domain.leq left (Domain.widen left right) ∧ Domain.leq right (Domain.widen left right) :=
  Partition.leq_upper (fun _ => TaintTree.leq_refl) (fun _ _ => TaintTree.leq_widen)
    leftFormed rightFormed

/-- The widening of two taint trees covers both and is no higher than the heuristics allow, and it is
the join where the join is no higher than that.  The widening of two environments covers both. -/
theorem widen_covers_within_height (heuristics : Heuristics) :
    (∀ left right : TaintTree heuristics, left.WellFormed → right.WellFormed →
      left.leq (left.widen right) ∧ right.leq (left.widen right) ∧
      (left.widen right).height ≤ heuristics.maxTreeHeight.toNat ∧
      ((left.join right).height ≤ heuristics.maxTreeHeight.toNat →
        left.widen right = left.join right)) ∧
    (∀ left right : Environment heuristics, left.WellFormed → right.WellFormed →
      Domain.leq left (Domain.widen left right) ∧ Domain.leq right (Domain.widen left right)) := by
  constructor
  · intro left right leftFormed rightFormed
    obtain ⟨leftCovered, rightCovered⟩ := TaintTree.leq_widen leftFormed rightFormed
    refine ⟨leftCovered, rightCovered, TaintTree.height_widen_le left right, ?_⟩
    intro low
    rw [TaintTree.widen_eq, if_neg (Nat.not_lt_of_le low)]
  · intro left right leftFormed rightFormed
    exact Environment.leq_widen leftFormed rightFormed

/-- Taint one step deeper than a widened tree may be. -/
def deepTaint : TaintTree (.ofPreset .fast) :=
  .ofEdges [([.anyIndex, .anyIndex, .anyIndex], .ofKind ⟨"source"⟩)]

def flatTaint : TaintTree (.ofPreset .fast) :=
  .leaf (.ofKind ⟨"sink"⟩)

/-- The environment that binds one root to a tree. -/
def Environment.binding (tree : TaintTree heuristics) : Environment heuristics :=
  ⟨.sparse ((∅ : SortedMap RootId (TaintTree heuristics)).insert ⟨0⟩ tree)⟩

/-- The join with the deep tree is too high and is collapsed; that of the flat tree with itself is
kept. -/
theorem widen_covers_within_height_deep :
    flatTaint.WellFormed ∧ deepTaint.WellFormed ∧
    (flatTaint.join deepTaint).height = 3 ∧
    flatTaint.leq (flatTaint.widen deepTaint) ∧ deepTaint.leq (flatTaint.widen deepTaint) ∧
    (flatTaint.widen deepTaint).height ≤ 2 ∧
    flatTaint.widen flatTaint = flatTaint.join flatTaint ∧
    Domain.leq (Environment.binding flatTaint)
      (Domain.widen (Environment.binding flatTaint) (Environment.binding deepTaint)) := by
  have flatFormed : flatTaint.WellFormed := of_decide_eq_true (by cbv)
  have deepFormed : deepTaint.WellFormed := of_decide_eq_true (by cbv)
  have flatBound : (Environment.binding flatTaint).WellFormed := of_decide_eq_true (by cbv)
  have deepBound : (Environment.binding deepTaint).WellFormed := of_decide_eq_true (by cbv)
  obtain ⟨trees, environments⟩ := widen_covers_within_height (.ofPreset .fast)
  obtain ⟨flatCovered, deepCovered, low, _⟩ := trees flatTaint deepTaint flatFormed deepFormed
  have joined := (trees flatTaint flatTaint flatFormed flatFormed).2.2.2 (by cbv)
  exact ⟨flatFormed, deepFormed, by cbv, flatCovered, deepCovered, low, joined,
    (environments _ _ flatBound deepBound).1⟩

end AliasTaint
