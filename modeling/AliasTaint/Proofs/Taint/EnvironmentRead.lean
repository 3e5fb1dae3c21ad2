import AliasTaint.Proofs.Taint.DeepReadMonotone
import AliasTaint.Proofs.Taint.EnvironmentWiden

/-!
# Reads of joined and met environments

To read a location is a homomorphism of lattices: what is read from a join or a meet of environments
shows the join or the meet of what is read from each of them.  A root that is not bound reads as
bottom and the top environment reads as top everywhere, so this holds whichever roots the two sides
bind, and also where a meet of trees is bottom and its root is unbound.
-/

namespace AliasTaint

open Domain

variable {heuristics : Heuristics}

theorem Taint.top_meet (taint : Taint heuristics) : Domain.meet Taint.top taint = taint := by
  obtain ⟨frames⟩ := taint
  cases frames <;> rfl

namespace TaintTree

theorem stores_meet {left right : TaintTree heuristics}
    (leftFormed : left.WellFormed) (rightFormed : right.WellFormed) :
    (left.meet right).WellFormed :=
  (isMeet_merge_sunk MergeOp.isMeet_meet leftFormed rightFormed).stores

theorem view_meet {left right : TaintTree heuristics}
    (leftFormed : left.WellFormed) (rightFormed : right.WellFormed) (path : Path) :
    (left.meet right).view path = Domain.meet (left.view path) (right.view path) :=
  (isMeet_merge_sunk MergeOp.isMeet_meet leftFormed rightFormed).view path

theorem eq_bottom_of_isBottom {tree : TaintTree heuristics} (isNothing : tree.isBottom) :
    tree = bottom :=
  congrArg mk (Tree.ext_node (Node.eq_bottom_of_isBottom isNothing))

theorem getD_nonBottom? (tree : TaintTree heuristics) :
    (Domain.nonBottom? tree).getD bottom = tree := by
  unfold Domain.nonBottom?
  split
  · rename_i isNothing
    exact (eq_bottom_of_isBottom isNothing).symm
  · rfl

end TaintTree

namespace Environment

/-! ## Joins and meets, root by root -/

section Roots

variable {left right : Environment heuristics}
  (leftFormed : left.WellFormed) (rightFormed : right.WellFormed)

include leftFormed rightFormed

theorem treeOf_join (root : RootId) :
    ((Domain.join left right).treeOf root).WellFormed ∧
      ∀ path, ((Domain.join left right).treeOf root).view path =
        Domain.join ((left.treeOf root).view path) ((right.treeOf root).view path) := by
  have leftTree := wellFormed_treeOf leftFormed root
  have rightTree := wellFormed_treeOf rightFormed root
  obtain ⟨leftTrees⟩ := left
  obtain ⟨rightTrees⟩ := right
  cases leftTrees with
  | top =>
      refine ⟨TaintTree.wellFormed_top, fun path => ?_⟩
      rw [treeOf_top, TaintTree.view_top]
      exact TaintTree.view_top path
  | sparse leftMap =>
      cases rightTrees with
      | top =>
          refine ⟨TaintTree.wellFormed_top, fun path => ?_⟩
          have topFormed : (Taint.top : Taint heuristics).WellFormed := trivial
          rw [treeOf_top, TaintTree.view_top, SemilatticeOn.join_eq_of_leq
            (TaintTree.good_view leftTree path) topFormed (Partition.leq_top _)]
          exact TaintTree.view_top path
      | sparse rightMap =>
          have combined : (leftMap.combine Domain.join rightMap).get? root = _ :=
            SortedMap.get?_combine Domain.join root
          have joined : (Domain.join (mk (.sparse leftMap)) (mk (.sparse rightMap))).treeOf root =
              ((leftMap.combine Domain.join rightMap).get? root).getD .bottom := rfl
          rw [joined, combined]
          simp only [treeOf_sparse] at leftTree rightTree ⊢
          cases leftFound : leftMap.get? root with
          | none =>
              refine ⟨rightTree, fun path => ?_⟩
              rw [Option.getD_none, TaintTree.view_bottom]
              exact (SemilatticeOn.bottom_join (TaintTree.good_view rightTree path)).symm
          | some tree =>
              rw [leftFound] at leftTree
              cases rightFound : rightMap.get? root with
              | none =>
                  refine ⟨leftTree, fun path => ?_⟩
                  rw [Option.getD_none, TaintTree.view_bottom]
                  exact (SemilatticeOn.join_bottom (TaintTree.good_view leftTree path)).symm
              | some other =>
                  rw [rightFound] at rightTree
                  exact ⟨TaintTree.stores_join leftTree rightTree,
                    TaintTree.view_join leftTree rightTree⟩

theorem treeOf_meet (root : RootId) :
    ((Domain.meet left right).treeOf root).WellFormed ∧
      ∀ path, ((Domain.meet left right).treeOf root).view path =
        Domain.meet ((left.treeOf root).view path) ((right.treeOf root).view path) := by
  have leftTree := wellFormed_treeOf leftFormed root
  have rightTree := wellFormed_treeOf rightFormed root
  obtain ⟨leftTrees⟩ := left
  obtain ⟨rightTrees⟩ := right
  cases rightTrees with
  | top =>
      refine ⟨leftTree, fun path => ?_⟩
      rw [treeOf_top, TaintTree.view_top]
      rfl
  | sparse rightMap =>
      cases leftTrees with
      | top =>
          refine ⟨rightTree, fun path => ?_⟩
          rw [treeOf_top, TaintTree.view_top, Taint.top_meet]
          rfl
      | sparse leftMap =>
          have common : (leftMap.common Domain.meet rightMap).get? root = _ :=
            SortedMap.get?_common Domain.meet root
          have met : (Domain.meet (mk (.sparse leftMap)) (mk (.sparse rightMap))).treeOf root =
              ((leftMap.common Domain.meet rightMap).get? root).getD .bottom := rfl
          rw [met, common]
          simp only [treeOf_sparse] at leftTree rightTree ⊢
          cases leftFound : leftMap.get? root with
          | none =>
              refine ⟨TaintTree.stores_bottom, fun path => ?_⟩
              rw [Option.bind_none, Option.getD_none, TaintTree.view_bottom]
              exact (LatticeOn.bottom_meet (TaintTree.good_view rightTree path)).symm
          | some tree =>
              rw [leftFound] at leftTree
              cases rightFound : rightMap.get? root with
              | none =>
                  refine ⟨TaintTree.stores_bottom, fun path => ?_⟩
                  rw [Option.bind_some, Option.bind_none, Option.getD_none, TaintTree.view_bottom]
                  exact (LatticeOn.meet_bottom (TaintTree.good_view leftTree path)).symm
              | some other =>
                  rw [rightFound] at rightTree
                  rw [Option.bind_some, Option.bind_some, TaintTree.getD_nonBottom?]
                  exact ⟨TaintTree.stores_meet leftTree rightTree,
                    TaintTree.view_meet leftTree rightTree⟩

/-- A read from a combination of environments is the same combination of the reads, if both combine
what is shown at each path. -/
theorem equals_read_of_combined {combine : Taint heuristics → Taint heuristics → Taint heuristics}
    {combined : Environment heuristics} {location : Location} {tree : TaintTree heuristics}
    (rootCombined : (combined.treeOf location.root).WellFormed ∧
      ∀ path, (combined.treeOf location.root).view path =
        combine ((left.treeOf location.root).view path) ((right.treeOf location.root).view path))
    (treeFormed : tree.WellFormed)
    (readsCombined : ∀ path, tree.view path =
      combine ((left.read location).view path) ((right.read location).view path)) :
    equals (combined.read location) tree := by
  obtain ⟨rootFormed, shown⟩ := rootCombined
  refine (TaintTree.equals_iff_view_eq (wellFormed_read_of_treeOf rootFormed) treeFormed).mpr
    fun path => ?_
  rw [readsCombined, view_read rootFormed, shown, view_read (wellFormed_treeOf leftFormed _),
    view_read (wellFormed_treeOf rightFormed _)]

theorem read_leq_of_leq (covered : Domain.leq left right) (location : Location) :
    (left.read location).leq (right.read location) := by
  refine (TaintTree.leq_iff_view_leq (wellFormed_read leftFormed location)
    (wellFormed_read rightFormed location)).mpr fun below => ?_
  exact view_read_leq_of_leq leftFormed rightFormed covered location below

end Roots

/-- What is read from the join or the meet of two environments is the join or the meet of what is read
from each of them, and more is read from a greater environment. -/
theorem readPath_homomorphic {left right : Environment heuristics}
    (leftFormed : left.WellFormed) (rightFormed : right.WellFormed)
    (location : Location) (path : Path) :
    equals ((Domain.join left right).readPath location path)
      ((left.readPath location path).join (right.readPath location path)) ∧
    equals ((Domain.meet left right).readPath location path)
      ((left.readPath location path).meet (right.readPath location path)) ∧
    (Domain.leq left right →
      (left.readPath location path).leq (right.readPath location path)) := by
  have leftRead := wellFormed_read leftFormed (location.extend path)
  have rightRead := wellFormed_read rightFormed (location.extend path)
  refine ⟨?joins, ?meets, ?grows⟩
  case joins =>
    exact equals_read_of_combined leftFormed rightFormed (treeOf_join leftFormed rightFormed _)
      (TaintTree.stores_join leftRead rightRead) (TaintTree.view_join leftRead rightRead)
  case meets =>
    exact equals_read_of_combined leftFormed rightFormed (treeOf_meet leftFormed rightFormed _)
      (TaintTree.stores_meet leftRead rightRead) (TaintTree.view_meet leftRead rightRead)
  case grows =>
    intro covered
    exact read_leq_of_leq leftFormed rightFormed covered (location.extend path)

/-- A root with taint of different features on the two sides, and a side that is top. -/
theorem readPath_homomorphic_elements :
    oneTainted.WellFormed ∧ moreTainted.WellFormed ∧ (top : Environment .standard).WellFormed ∧
    equals ((Domain.join oneTainted moreTainted).readPath ⟨⟨1⟩, []⟩ [.anyIndex])
      ((oneTainted.readPath ⟨⟨1⟩, []⟩ [.anyIndex]).join
        (moreTainted.readPath ⟨⟨1⟩, []⟩ [.anyIndex])) ∧
    equals ((Domain.meet oneTainted moreTainted).readPath ⟨⟨1⟩, []⟩ [.anyIndex])
      ((oneTainted.readPath ⟨⟨1⟩, []⟩ [.anyIndex]).meet
        (moreTainted.readPath ⟨⟨1⟩, []⟩ [.anyIndex])) ∧
    Domain.leq oneTainted moreTainted ∧
    (oneTainted.readPath ⟨⟨1⟩, []⟩ [.anyIndex]).leq
      (moreTainted.readPath ⟨⟨1⟩, []⟩ [.anyIndex]) ∧
    equals ((Domain.meet top moreTainted).readPath ⟨⟨0⟩, []⟩ [.anyIndex])
      ((readPath top ⟨⟨0⟩, []⟩ [.anyIndex]).meet
        (moreTainted.readPath ⟨⟨0⟩, []⟩ [.anyIndex])) := by
  have formed : oneTainted.WellFormed := of_decide_eq_true (by cbv)
  have moreFormed : moreTainted.WellFormed := of_decide_eq_true (by cbv)
  have topFormed : (top : Environment .standard).WellFormed := of_decide_eq_true (by cbv)
  have covered : Domain.leq oneTainted moreTainted := by cbv
  obtain ⟨joins, meets, grows⟩ := readPath_homomorphic formed moreFormed ⟨⟨1⟩, []⟩ [.anyIndex]
  exact ⟨formed, moreFormed, topFormed, joins, meets, covered, grows covered,
    (readPath_homomorphic topFormed moreFormed ⟨⟨0⟩, []⟩ [.anyIndex]).2.1⟩

end Environment

end AliasTaint
