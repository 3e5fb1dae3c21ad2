import AliasTaint.Proofs.Tree.View
import AliasTaint.Proofs.Value.CollapseDepth
import Mathlib.Computability.Primrec.List
import Mathlib.Computability.TuringMachine.StackTuringMachine
import Mathlib.Data.List.Permutation

/-!
# The order of trees

The order is decided by the stored values of the left tree alone: each of them is compared with what
the right tree shows at its path.  That is enough to compare the shown values at every path, also at
paths where the left tree stores nothing.

Closed trees are evaluated by the equations of the functions on lists and options that they are made
with, here and in the modules that build on this one; the imported files of Mathlib have them.
-/

namespace AliasTaint

open Domain LawfulDomain

variable {V : Type} [Domain V]

namespace Node

/-- What a node on the right shows that may be missing, given what it inherits. -/
def shownAt (inherited : V) : Option (Node V) → V
  | some node => join inherited node.value
  | none => inherited

theorem leqUnder_mk
    (sink : V → V) (inherited value : V) (children : List (PathElement × Node V))
    (right : Option (Node V)) :
    leqUnder sink inherited (.mk value children) right =
      (Domain.leq value (shownAt inherited right) &&
        leqChildren sink (sinkIntoChild sink Domain.bottom (shownAt inherited right))
          right children) := by
  cases right <;> simp only [leqUnder, shownAt]

theorem leqChildren_iff
    (sink : V → V) (inherited : V) (right : Option (Node V))
    (children : List (PathElement × Node V)) :
    leqChildren sink inherited right children ↔
      ∀ entry ∈ children,
        leqUnder sink inherited entry.2 (right.bind fun node => node.child? entry.1) := by
  induction children with
  | nil =>
      simp [leqChildren]
  | cons entry rest inductionHypothesis =>
      obtain ⟨label, left⟩ := entry
      simp [leqChildren, inductionHypothesis]

variable [LawfulDomain V] {sink : V → V}

omit [LawfulDomain V] in
theorem value_leq_of_leqUnder
    {inherited : V} {left : Node V} {right : Option (Node V)}
    (holds : leqUnder sink inherited left right) :
    Domain.leq left.value (shownAt inherited right) := by
  cases left with
  | mk value children =>
      rw [leqUnder_mk, Bool.and_eq_true] at holds
      exact holds.1

theorem leqUnder_bottom (inherited : V) (right : Option (Node V)) :
    leqUnder sink inherited bottom right := by
  rw [bottom, leaf, leqUnder_mk, Bool.and_eq_true]
  exact ⟨bottom_leq _, by simp [leqChildren]⟩

/-- The comparison passes on to the children under any label, stored or not. -/
theorem leqUnder_child
    {inherited : V} {left : Node V} {right : Option (Node V)}
    (holds : leqUnder sink inherited left right) (label : PathElement) :
    leqUnder sink (sinkIntoChild sink Domain.bottom (shownAt inherited right))
      (left.childOrBottom label) (right.bind fun node => node.child? label) := by
  cases left with
  | mk value children =>
      rw [leqUnder_mk, Bool.and_eq_true, leqChildren_iff] at holds
      cases found : (mk value children).child? label with
      | none =>
          rw [childOrBottom, found]
          exact leqUnder_bottom _ _
      | some child =>
          rw [childOrBottom_of_child? found]
          exact holds.2 (label, child) (Entries.mem_of_lookup found)

omit [LawfulDomain V] in
theorem childOrBottom_getD (right : Option (Node V)) (label : PathElement) :
    (right.getD bottom).childOrBottom label =
      (right.bind fun node => node.child? label).getD bottom := by
  cases right <;> rfl

theorem shownAt_leq_join
    (inherited : V) (right : Option (Node V)) :
    Domain.leq (shownAt inherited right) (join inherited (right.getD bottom).value) := by
  cases right with
  | none =>
      exact leq_join_left _ _
  | some node =>
      exact leq_refl _

theorem join_leq_shownAt
    (inherited : V) (right : Option (Node V)) :
    Domain.leq (join inherited (right.getD bottom).value) (shownAt inherited right) := by
  cases right with
  | none =>
      exact join_leq (leq_refl _) (bottom_leq _)
  | some node =>
      exact leq_refl _

theorem showFrom_leq_of_leqUnder
    (monotone : MonotoneMap sink)
    {inherited : V} {left : Node V} {right : Option (Node V)}
    (holds : leqUnder sink inherited left right)
    {shown upper : V}
    (covered : Domain.leq shown upper)
    (upperCovers : Domain.leq (shownAt inherited right) upper)
    (path : Path) :
    Domain.leq (left.showFrom sink shown path)
      ((right.getD bottom).showFrom sink upper path) := by
  induction path generalizing inherited left right shown upper with
  | nil =>
      exact covered
  | cons label path inductionHypothesis =>
      have childHolds := leqUnder_child holds label
      have passedOn :
          Domain.leq (sinkIntoChild sink Domain.bottom (shownAt inherited right))
            (sinkIntoChild sink Domain.bottom upper) :=
        sinkIntoChild_bottom_leq monotone upperCovers
      rw [showFrom, showFrom, childOrBottom_getD right label]
      have childCovers :
          Domain.leq
            (shownAt (sinkIntoChild sink Domain.bottom (shownAt inherited right))
              (right.bind fun node => node.child? label))
            (join (sinkIntoChild sink Domain.bottom upper)
              ((right.bind fun node => node.child? label).getD bottom).value) :=
        leq_trans (shownAt_leq_join _ _) (join_mono passedOn (leq_refl _))
      refine inductionHypothesis childHolds (join_leq ?_ ?_) childCovers
      · exact leq_join_of_leq_left _ (sinkIntoChild_bottom_leq monotone covered)
      · exact leq_trans (value_leq_of_leqUnder childHolds) childCovers

/-- The comparison holds if it holds of the values shown at all paths. -/
theorem leqUnder_of_showFrom_leq
    (monotone : MonotoneMap sink)
    {left : Node V} (leftOrdered : left.Ordered)
    {inherited : V} {right : Option (Node V)} {shown upper : V}
    (valueShown : Domain.leq left.value shown)
    (upperCovered : Domain.leq upper (shownAt inherited right))
    (covered : ∀ path,
      Domain.leq (left.showFrom sink shown path)
        ((right.getD bottom).showFrom sink upper path)) :
    leqUnder sink inherited left right := by
  induction left using Node.induction generalizing inherited right shown upper with
  | step value children inductionHypothesis =>
      rw [leqUnder_mk, Bool.and_eq_true, leqChildren_iff]
      constructor
      · exact leq_trans valueShown (leq_trans (covered []) upperCovered)
      · intro entry member
        obtain ⟨label, child⟩ := entry
        have found : (mk value children).child? label = some child :=
          leftOrdered.increasing.lookup_eq_some_iff.mpr member
        have passedOn :
            Domain.leq (sinkIntoChild sink Domain.bottom upper)
              (sinkIntoChild sink Domain.bottom (shownAt inherited right)) :=
          sinkIntoChild_bottom_leq monotone upperCovered
        refine inductionHypothesis (label, child) member (leftOrdered.child? found)
          (leq_join_right (sinkIntoChild sink Domain.bottom shown) child.value)
          (leq_trans (join_mono passedOn (leq_refl _)) (join_leq_shownAt _ _)) ?_
        intro path
        have below := covered (label :: path)
        rwa [showFrom, showFrom, childOrBottom_getD right label,
          childOrBottom_of_child? found] at below

end Node

namespace Tree

variable [LawfulDomain V] {sink : V → V}

theorem leq_iff_view_leq (monotone : MonotoneMap sink) (left right : Tree V) :
    left.leq sink right ↔
      ∀ path, Domain.leq (left.view sink path) (right.view sink path) := by
  constructor
  · intro holds path
    have valueCovered : Domain.leq left.node.value (Node.shownAt Domain.bottom (some right.node)) :=
      Node.value_leq_of_leqUnder holds
    have rootCovers : Domain.leq (Node.shownAt Domain.bottom (some right.node)) right.node.value :=
      join_leq (bottom_leq _) (leq_refl _)
    exact Node.showFrom_leq_of_leqUnder monotone holds
      (leq_trans valueCovered rootCovers) rootCovers path
  · intro covered
    exact Node.leqUnder_of_showFrom_leq monotone left.ordered
      (leq_refl left.node.value) (leq_join_right Domain.bottom right.node.value) covered

/-- The order of trees is the order of the values they show, path by path, where a tree shows at a
path what is stored there and what the ancestors sink into it.  So it is a preorder with bottom as its
least tree, and two trees are equal in it if and only if they show equal values everywhere. -/
theorem leq_pointwise (monotone : MonotoneMap sink) :
    (∀ (tree : Tree V) (path : Path),
      equals (tree.view sink path)
        (Domain.join (tree.node.sunkFrom sink Domain.bottom path) (tree.node.stored path))) ∧
    (∀ left right : Tree V, left.leq sink right ↔
      ∀ path, Domain.leq (left.view sink path) (right.view sink path)) ∧
    (∀ tree : Tree V, tree.leq sink tree) ∧
    (∀ first second third : Tree V,
      first.leq sink second → second.leq sink third → first.leq sink third) ∧
    (∀ tree : Tree V, (bottom : Tree V).leq sink tree) ∧
    (∀ left right : Tree V, (left.leq sink right && right.leq sink left) ↔
      ∀ path, equals (left.view sink path) (right.view sink path)) := by
  refine ⟨?_, leq_iff_view_leq monotone, ?_, ?_, ?_, ?_⟩
  · intro tree path
    exact Node.view_equals_sunk monotone tree.node path
  · intro tree
    exact (leq_iff_view_leq monotone tree tree).mpr fun path => leq_refl _
  · intro first second third firstCovered secondCovered
    rw [leq_iff_view_leq monotone] at firstCovered secondCovered ⊢
    intro path
    exact leq_trans (firstCovered path) (secondCovered path)
  · intro tree
    exact Node.leqUnder_bottom Domain.bottom (some tree.node)
  · intro left right
    simp only [Bool.and_eq_true, leq_iff_view_leq monotone, equals_iff]
    exact forall_and.symm

/-- A value below the root is covered by the root of the other tree, at all paths. -/
theorem leq_pointwise_depths :
    MonotoneMap (id : CollapseDepth → CollapseDepth) ∧
    (ofEdges id [([.anyIndex], CollapseDepth.level 2)]).leq id (leaf (.level 1)) ∧
    ∀ path,
      Domain.leq ((ofEdges id [([.anyIndex], CollapseDepth.level 2)]).view id path)
        ((leaf (CollapseDepth.level 1)).view id path) := by
  have monotone : MonotoneMap (id : CollapseDepth → CollapseDepth) := fun covered => covered
  have holds : (ofEdges id [([.anyIndex], CollapseDepth.level 2)]).leq id (leaf (.level 1)) := by
    cbv
  exact ⟨monotone, holds, ((leq_pointwise monotone).2.1 _ _).mp holds⟩

end Tree

end AliasTaint
