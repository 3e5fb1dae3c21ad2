import AliasTaint.PointsTo.Tree
import AliasTaint.Proofs.Tree.Bounds
import AliasTaint.Proofs.Tree.Embedding
import AliasTaint.Proofs.Value.WellFormed
import AliasTaint.Taint.Tree

/-!
# Meets of trees

The meet of two trees with well-formed values shows at every path the meet of what the two trees show
there, and it is their greatest lower bound among all such trees.  Narrowing is the meet as well.

The values of taint trees and of points-to trees are lattices on their well-formed values only.  So
the bounds are taken from trees over the domain of well-formed values, of which the given trees are
the images.
-/

namespace AliasTaint

open Domain LawfulDomain

namespace Tree

variable {V : Type} [Domain V]

/-- A tree shows at every path the meet of what two trees show there, and is the greatest lower bound
of the two among the trees that store well-formed values. -/
structure IsMeet (sink : V → V) (Good : V → Prop) (left right lower : Tree V) : Prop where
  stores : lower.Stores Good
  view (path : Path) :
    lower.view sink path = Domain.meet (left.view sink path) (right.view sink path)
  leq_left : lower.leq sink left
  leq_right : lower.leq sink right
  greatest (tree : Tree V) : tree.Stores Good →
    tree.leq sink left → tree.leq sink right → tree.leq sink lower

section Lawful

variable [LawfulDomain V] {sink : V → V} {left right lower : Tree V}

theorem leq_both_of_view_meet
    (monotone : MonotoneMap sink)
    (shown : ∀ path, lower.view sink path = Domain.meet (left.view sink path) (right.view sink path)) :
    lower.leq sink left ∧ lower.leq sink right := by
  rw [leq_iff_view_leq monotone, leq_iff_view_leq monotone, ← forall_and]
  intro path
  rw [shown path]
  exact ⟨meet_leq_left _ _, meet_leq_right _ _⟩

theorem leq_of_view_meet
    (monotone : MonotoneMap sink)
    (shown : ∀ path, lower.view sink path = Domain.meet (left.view sink path) (right.view sink path))
    {tree : Tree V} (leftCovers : tree.leq sink left) (rightCovers : tree.leq sink right) :
    tree.leq sink lower := by
  rw [leq_iff_view_leq monotone] at leftCovers rightCovers ⊢
  intro path
  rw [shown path]
  exact leq_meet (leftCovers path) (rightCovers path)

theorem view_merge_eq_meet [AntisymmetricDomain V]
    (monotone : MonotoneMap sink) (keepsMeets : MeetMap sink)
    (keepsBottom : Domain.isBottom (sink Domain.bottom))
    {op : MergeOp} (isMeet : MergeOp.IsMeet V op) (left right : Tree V) (path : Path) :
    (left.merge sink op right).view sink path =
      Domain.meet (left.view sink path) (right.view sink path) :=
  AntisymmetricDomain.antisymm
    (view_merge_leq_meet monotone isMeet left right path)
    (meet_view_leq_merge monotone keepsMeets keepsBottom isMeet left right path)

end Lawful

variable {Good : V → Prop} [LatticeOn Good] {sink : V → V} {inner : Subtype Good → Subtype Good}

/-- Trees with well-formed values have a meet, if what sinks stays well-formed. -/
theorem isMeet_merge
    (sinks : ∀ value, (inner value).val = sink value.val)
    (monotone : MonotoneMap inner) (keepsMeets : MeetMap inner)
    (keepsBottom : Domain.isBottom (inner Domain.bottom))
    {op : MergeOp} (isMeet : MergeOp.IsMeet (Subtype Good) op)
    {left right : Tree V} (leftStores : left.Stores Good) (rightStores : right.Stores Good) :
    IsMeet sink Good left right (left.merge sink op right) := by
  have embedding := embedding_val Good
  obtain ⟨liftedLeft, rfl⟩ := exists_embed_val leftStores
  obtain ⟨liftedRight, rfl⟩ := exists_embed_val rightStores
  have shown := view_merge_eq_meet monotone keepsMeets keepsBottom isMeet liftedLeft liftedRight
  rw [← embed_merge embedding sinks op liftedLeft liftedRight]
  refine ⟨Node.stores_mapValues_val _, ?_, ?_, ?_, ?_⟩
  · intro path
    rw [view_embed embedding sinks, view_embed embedding sinks, view_embed embedding sinks,
      shown path]
    exact embedding.meet _ _
  · rw [leq_embed embedding sinks]
    exact (leq_both_of_view_meet monotone shown).1
  · rw [leq_embed embedding sinks]
    exact (leq_both_of_view_meet monotone shown).2
  · intro tree stores leftCovers rightCovers
    obtain ⟨lifted, rfl⟩ := exists_embed_val stores
    rw [leq_embed embedding sinks] at leftCovers rightCovers ⊢
    exact leq_of_view_meet monotone shown leftCovers rightCovers

end Tree

/-! ## Taint trees and points-to trees -/

variable {heuristics : Heuristics}

namespace TaintTree

/-- All stored taint is well-formed. -/
def WellFormed (tree : TaintTree heuristics) : Prop :=
  tree.tree.Stores Taint.WellFormed

instance : DecidablePred (@WellFormed heuristics) := fun tree =>
  inferInstanceAs (Decidable (tree.tree.Stores Taint.WellFormed))

/-- Nothing is lost or added on the way down, so every operation that acts as a meet on well-formed
taint acts as a meet on trees. -/
theorem isMeet_merge_sunk
    {op : MergeOp} (isMeet : MergeOp.IsMeet (Subtype (@Taint.WellFormed heuristics)) op)
    {left right : TaintTree heuristics} (leftFormed : left.WellFormed)
    (rightFormed : right.WellFormed) :
    Tree.IsMeet policy.sink Taint.WellFormed left.tree right.tree
      (left.tree.merge policy.sink op right.tree) := by
  have monotone : MonotoneMap (id : Subtype (@Taint.WellFormed heuristics) → _) :=
    fun covered => covered
  exact Tree.isMeet_merge (fun _ => rfl) monotone (fun _ _ => leq_refl _) isBottom_bottom isMeet
    leftFormed rightFormed

end TaintTree

namespace PointsToTree

/-- All stored points-to sets are well-formed. -/
def WellFormed (tree : PointsToTree heuristics) : Prop :=
  tree.tree.Stores PointsToSet.WellFormed

instance : DecidablePred (@WellFormed heuristics) := fun tree =>
  inferInstanceAs (Decidable (tree.tree.Stores PointsToSet.WellFormed))

theorem isMeet_merge_unsunk
    {op : MergeOp} (isMeet : MergeOp.IsMeet (Subtype (@PointsToSet.WellFormed heuristics)) op)
    {left right : PointsToTree heuristics} (leftFormed : left.WellFormed)
    (rightFormed : right.WellFormed) :
    Tree.IsMeet policy.sink PointsToSet.WellFormed left.tree right.tree
      (left.tree.merge policy.sink op right.tree) := by
  have monotone : MonotoneMap
      fun _ : Subtype (@PointsToSet.WellFormed heuristics) => Domain.bottom :=
    fun _ => leq_refl _
  exact Tree.isMeet_merge (fun _ => rfl) monotone (fun _ _ => meet_leq_left _ _) isBottom_bottom
    isMeet leftFormed rightFormed

end PointsToTree

theorem isMeet_narrow_subtype {V : Type} [Domain V] (Good : V → Prop) [LatticeOn Good] :
    MergeOp.IsMeet (Subtype Good) .narrow :=
  MergeOp.isMeet_narrow fun left right => Subtype.ext (LatticeOn.narrow_eq Good left.val right.val)

/-- The meet and the narrowing of two taint trees, and of two points-to trees, show at every path the
meet of what the two trees show there, and are their greatest lower bound. -/
theorem meet_pointwise_greatest (heuristics : Heuristics) :
    (∀ left right : TaintTree heuristics, left.WellFormed → right.WellFormed →
      Tree.IsMeet TaintTree.policy.sink Taint.WellFormed
        left.tree right.tree (left.meet right).tree ∧
      Tree.IsMeet TaintTree.policy.sink Taint.WellFormed
        left.tree right.tree (left.narrow right).tree) ∧
    (∀ left right : PointsToTree heuristics, left.WellFormed → right.WellFormed →
      Tree.IsMeet PointsToTree.policy.sink PointsToSet.WellFormed
        left.tree right.tree (left.meet right).tree ∧
      Tree.IsMeet PointsToTree.policy.sink PointsToSet.WellFormed
        left.tree right.tree (left.narrow right).tree) := by
  constructor
  · intro left right leftFormed rightFormed
    exact ⟨TaintTree.isMeet_merge_sunk MergeOp.isMeet_meet leftFormed rightFormed,
      TaintTree.isMeet_merge_sunk (isMeet_narrow_subtype _) leftFormed rightFormed⟩
  · intro left right leftFormed rightFormed
    exact ⟨PointsToTree.isMeet_merge_unsunk MergeOp.isMeet_meet leftFormed rightFormed,
      PointsToTree.isMeet_merge_unsunk (isMeet_narrow_subtype _) leftFormed rightFormed⟩

/-- Taint at a root that may carry two features. -/
def rootTaint : TaintTree .standard :=
  .leaf (.ofFrame ⟨"source"⟩ (.ofFeatures (.ofMay [⟨"cast"⟩, ⟨"copy"⟩])))

/-- Taint at the elements of a root that always carries one feature. -/
def elementTaint : TaintTree .standard :=
  .ofEdges [([.anyIndex], .ofFrame ⟨"source"⟩ (.ofFeatures (.ofAlways [⟨"copy"⟩])))]

def twoTargets : PointsToTree .standard :=
  .leaf (.ofEdges [(⟨⟨0⟩, []⟩, .empty), (⟨⟨1⟩, []⟩, .alwaysCollapse)])

def oneTarget : PointsToTree .standard :=
  .leaf (.ofEdges [(⟨⟨1⟩, []⟩, .empty)])

/-- The taint of the root meets taint that is stored only below it, and two points-to sets share a
target that only one of them collapses. -/
theorem meet_pointwise_greatest_source :
    rootTaint.WellFormed ∧ elementTaint.WellFormed ∧
    twoTargets.WellFormed ∧ oneTarget.WellFormed ∧
    (rootTaint.meet elementTaint).tree.view TaintTree.policy.sink [.anyIndex] =
      Domain.meet (rootTaint.tree.view TaintTree.policy.sink [.anyIndex])
        (elementTaint.tree.view TaintTree.policy.sink [.anyIndex]) ∧
    (rootTaint.narrow elementTaint).leq elementTaint ∧
    (twoTargets.meet oneTarget).leq oneTarget := by
  have rootFormed : rootTaint.WellFormed := of_decide_eq_true (by cbv)
  have elementFormed : elementTaint.WellFormed := of_decide_eq_true (by cbv)
  have twoFormed : twoTargets.WellFormed := of_decide_eq_true (by cbv)
  have oneFormed : oneTarget.WellFormed := of_decide_eq_true (by cbv)
  obtain ⟨taintMeets, targetMeets⟩ := meet_pointwise_greatest .standard
  obtain ⟨isMeet, isNarrow⟩ := taintMeets rootTaint elementTaint rootFormed elementFormed
  have targetsMeet := (targetMeets twoTargets oneTarget twoFormed oneFormed).1
  exact ⟨rootFormed, elementFormed, twoFormed, oneFormed, isMeet.view [.anyIndex],
    isNarrow.leq_right, targetsMeet.leq_right⟩

end AliasTaint
