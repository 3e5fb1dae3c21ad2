import AliasTaint.Proofs.Taint.Equality

/-!
# Widening of environments, root by root

Environments are widened root by root, but a root that is bound on one side only keeps its tree as it
is.  That is the tree widened with bottom if it is no higher than the heuristics allow, since a normal
tree is its own join with bottom.  A higher tree stays too high until the other side binds the root.
-/

namespace AliasTaint

open Domain

variable {heuristics : Heuristics}

/-! ## Joins with bottom -/

namespace TaintTree

theorem normal_bottom : (bottom : TaintTree heuristics).Normal :=
  normal_leaf (JoinClosed.bottom : Taint.WellFormed Domain.bottom)

theorem stored_bottom (path : Path) :
    (bottom : TaintTree heuristics).stored path = Domain.bottom :=
  Node.stored_bottom path

theorem view_bottom (path : Path) : (bottom : TaintTree heuristics).view path = Domain.bottom :=
  Node.view_leaf (JoinClosed.bottom : Taint.WellFormed Domain.bottom) path

theorem view_join {left right : TaintTree heuristics}
    (leftFormed : left.WellFormed) (rightFormed : right.WellFormed) (path : Path) :
    (left.join right).view path = Domain.join (left.view path) (right.view path) := by
  have goodLeft := good_view leftFormed path
  have goodRight := good_view rightFormed path
  refine SemilatticeOn.eq_of_leq_iff (good_view (stores_join leftFormed rightFormed) path)
    (JoinClosed.join goodLeft goodRight) ?_
  intro upper goodUpper
  have ideal := ideal_leq goodUpper
  rw [inside_view_join_iff ideal leftFormed rightFormed, ideal.join_iff goodLeft goodRight]

/-- A join of normal trees that shows what another shows, and stores nothing that the other does not
store, is the other. -/
theorem Normal.join_eq {tree left right : TaintTree heuristics}
    (normal : tree.Normal) (leftNormal : left.Normal) (rightNormal : right.Normal)
    (sameViews : ∀ path, Domain.join (left.view path) (right.view path) = tree.view path)
    (sameStored : ∀ path, Domain.join (left.stored path) (right.stored path) = tree.stored path) :
    left.join right = tree := by
  have joinNormal := leftNormal.join rightNormal
  refine joinNormal.ext_stored normal fun path => ?_
  rcases stored_join_eq leftNormal.wellFormed rightNormal.wellFormed path with isNothing | isJoin
  · have sameFilled := Node.isBottom_stored_eq_of_views joinNormal.stores normal.stores
      joinNormal.normal normal.normal
      (fun other => (view_join leftNormal.stores rightNormal.stores other).trans (sameViews other))
      path
    have joinNothing : Domain.isBottom ((left.join right).stored path) := by
      rw [isNothing]
      rfl
    have treeNothing : Domain.isBottom (tree.stored path) := sameFilled.symm.trans joinNothing
    rw [isNothing, (SemilatticeOn.isBottom_iff (normal.wellFormed.stored path)).mp treeNothing]
  · rw [isJoin, sameStored]

theorem Normal.join_bottom {tree : TaintTree heuristics} (normal : tree.Normal) :
    tree.join bottom = tree := by
  refine normal.join_eq normal normal_bottom (fun path => ?_) (fun path => ?_)
  · rw [view_bottom, CumulativeDomain.join_bottom]
  · rw [stored_bottom, CumulativeDomain.join_bottom]

theorem Normal.bottom_join {tree : TaintTree heuristics} (normal : tree.Normal) :
    bottom.join tree = tree := by
  refine normal.join_eq normal_bottom normal (fun path => ?_) (fun path => ?_)
  · rw [view_bottom, CumulativeDomain.bottom_join]
  · rw [stored_bottom, CumulativeDomain.bottom_join]

/-- Widening with bottom is symmetric. -/
theorem Normal.bottom_widen {tree : TaintTree heuristics} (normal : tree.Normal) :
    bottom.widen tree = tree.widen bottom := by
  rw [widen_eq, widen_eq, normal.bottom_join, normal.join_bottom]

/-- A tree is its own widening with bottom exactly if it is not too high. -/
theorem Normal.eq_widen_bottom_iff {tree : TaintTree heuristics} (normal : tree.Normal) :
    tree = tree.widen bottom ↔ tree.height ≤ heuristics.maxTreeHeight.toNat := by
  constructor
  · intro same
    rw [same]
    exact height_widen_le _ _
  · intro low
    rw [widen_eq, normal.join_bottom, if_neg (Nat.not_lt_of_le low)]

end TaintTree

/-! ## Roots -/

namespace Environment

/-- The tree of a root, bottom if the root is not bound. -/
def treeAt (environment : Environment heuristics) (root : RootId) : TaintTree heuristics :=
  (environment.tree? root).getD .bottom

/-- All bound trees are normal trees of well-formed taint. -/
def Normal (environment : Environment heuristics) : Prop :=
  ∀ entry ∈ environment.trees.bindings, entry.2.Normal

/-- Both sides bind a root, or neither tree is higher than the heuristics allow. -/
def WidensAt (left right : Environment heuristics) (root : RootId) : Prop :=
  (left.tree? root).isSome ∧ (right.tree? root).isSome ∨
    (left.treeAt root).height ≤ heuristics.maxTreeHeight.toNat ∧
      (right.treeAt root).height ≤ heuristics.maxTreeHeight.toNat

theorem Normal.tree? {environment : Environment heuristics} (normal : environment.Normal)
    {root : RootId} {tree : TaintTree heuristics} (found : environment.tree? root = some tree) :
    tree.Normal := by
  obtain ⟨trees⟩ := environment
  cases trees with
  | top =>
      exact nomatch found
  | sparse map =>
      exact normal (root, tree) (Entries.mem_of_lookup found)

theorem Normal.wellFormed {environment : Environment heuristics} (normal : environment.Normal) :
    environment.WellFormed :=
  fun entry member => (normal entry member).wellFormed

theorem tree?_widen {left right : Environment heuristics}
    (leftLimited : left.trees.isTop = false) (rightLimited : right.trees.isTop = false)
    (root : RootId) :
    (Domain.widen left right).tree? root =
      match left.tree? root, right.tree? root with
      | some tree, some other => some (tree.widen other)
      | some tree, none => some tree
      | none, found => found := by
  obtain ⟨leftTrees⟩ := left
  obtain ⟨rightTrees⟩ := right
  cases leftTrees with
  | top =>
      exact nomatch leftLimited
  | sparse leftMap =>
      cases rightTrees with
      | top =>
          exact nomatch rightLimited
      | sparse rightMap =>
          have combined : (leftMap.combine Domain.widen rightMap).get? root = _ :=
            SortedMap.get?_combine Domain.widen root
          refine combined.trans ?_
          simp only [tree?, Partition.binding?]
          cases leftMap.get? root <;> cases rightMap.get? root <;> rfl

/-- Widening of environments widens the trees of a root, and leaves no tree too high, exactly where
both sides bind the root or neither tree was too high.  At every root the widened trees cover what
the environment has there. -/
theorem widen_at_root_iff {left right : Environment heuristics}
    (leftNormal : left.Normal) (rightNormal : right.Normal)
    (leftLimited : left.trees.isTop = false) (rightLimited : right.trees.isTop = false)
    (root : RootId) :
    ((Domain.widen left right).treeAt root = (left.treeAt root).widen (right.treeAt root) ↔
      left.WidensAt right root) ∧
    (((Domain.widen left right).treeAt root).height ≤ heuristics.maxTreeHeight.toNat ↔
      left.WidensAt right root) ∧
    ((Domain.widen left right).treeAt root).leq ((left.treeAt root).widen (right.treeAt root)) := by
  have noHeight : (TaintTree.bottom : TaintTree heuristics).height ≤
      heuristics.maxTreeHeight.toNat := Nat.zero_le _
  simp only [treeAt, WidensAt, tree?_widen leftLimited rightLimited]
  cases leftFound : left.tree? root with
  | some tree =>
      have normal := leftNormal.tree? leftFound
      cases rightFound : right.tree? root with
      | some other =>
          have otherNormal := rightNormal.tree? rightFound
          have covered := TaintTree.leq_refl (normal.widen otherNormal).wellFormed
          simp [TaintTree.height_widen_le, covered]
      | none =>
          have covered := (TaintTree.leq_widen normal.wellFormed
            TaintTree.normal_bottom.wellFormed).1
          simp [normal.eq_widen_bottom_iff, noHeight, covered]
  | none =>
      cases rightFound : right.tree? root with
      | some other =>
          have otherNormal := rightNormal.tree? rightFound
          have covered := (TaintTree.leq_widen otherNormal.wellFormed
            TaintTree.normal_bottom.wellFormed).1
          simp [otherNormal.bottom_widen, otherNormal.eq_widen_bottom_iff, noHeight, covered]
      | none =>
          have formed : (TaintTree.bottom : TaintTree heuristics).Normal := TaintTree.normal_bottom
          have covered := (TaintTree.leq_widen formed.wellFormed formed.wellFormed).1
          simp [formed.eq_widen_bottom_iff, noHeight, covered]

theorem normal_binding {tree : TaintTree heuristics} (normal : tree.Normal) :
    (binding tree).Normal := by
  intro entry member
  rcases List.mem_singleton.mp member with rfl
  exact normal

theorem normal_flatTaint : flatTaint.Normal :=
  TaintTree.normal_leaf (of_decide_eq_true (by cbv))

theorem normal_deepTaint : deepTaint.Normal :=
  TaintTree.normal_ofEdges (of_decide_eq_true (by cbv))

/-- Both sides bind the root, so the deep tree is collapsed. -/
theorem widen_at_root_iff_deep :
    (binding flatTaint).Normal ∧ (binding deepTaint).Normal ∧
    (binding flatTaint).trees.isTop = false ∧ (binding deepTaint).trees.isTop = false ∧
    (Domain.widen (binding flatTaint) (binding deepTaint)).treeAt ⟨0⟩ =
      ((binding flatTaint).treeAt ⟨0⟩).widen ((binding deepTaint).treeAt ⟨0⟩) ∧
    ((Domain.widen (binding flatTaint) (binding deepTaint)).treeAt ⟨0⟩).height ≤ 2 := by
  have flatNormal := normal_binding normal_flatTaint
  have deepNormal := normal_binding normal_deepTaint
  have bothBind : (binding flatTaint).WidensAt (binding deepTaint) ⟨0⟩ := Or.inl ⟨rfl, rfl⟩
  obtain ⟨same, low, _⟩ := widen_at_root_iff flatNormal deepNormal rfl rfl ⟨0⟩
  exact ⟨flatNormal, deepNormal, rfl, rfl, same.mpr bothBind, low.mpr bothBind⟩

/-- A tree that only one side binds stays too high, on whichever side it is. -/
theorem widen_keeps_one_sided_tree :
    (bottom : Environment (.ofPreset .fast)).Normal ∧ (binding deepTaint).Normal ∧
    (Heuristics.ofPreset .fast).maxTreeHeight.toNat = 2 ∧
    ((Domain.widen bottom (binding deepTaint)).treeAt ⟨0⟩).height = 3 ∧
    ((Domain.widen (binding deepTaint) bottom).treeAt ⟨0⟩).height = 3 ∧
    (Domain.widen bottom (binding deepTaint)).treeAt ⟨0⟩ ≠
      (treeAt bottom ⟨0⟩).widen ((binding deepTaint).treeAt ⟨0⟩) ∧
    (Domain.widen (binding deepTaint) bottom).treeAt ⟨0⟩ ≠
      ((binding deepTaint).treeAt ⟨0⟩).widen (treeAt bottom ⟨0⟩) :=
  ⟨nofun, normal_binding normal_deepTaint, rfl, by cbv, by cbv, of_decide_eq_false (by cbv),
    of_decide_eq_false (by cbv)⟩

end Environment

end AliasTaint
