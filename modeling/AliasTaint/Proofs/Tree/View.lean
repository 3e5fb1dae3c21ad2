import AliasTaint.Proofs.Entries
import AliasTaint.Proofs.Lattice
import AliasTaint.Tree.Basic

/-!
# What trees show

A tree shows a value at every path, whether or not a node is stored there.  At the root it is the
stored value; one step further down it is what the parent passes on, joined with the value stored
there.  The operations on trees are described by what they do to the shown values.

The descent along a path is total: below the last stored node it goes through nodes that store
nothing.  So most facts about shown values go by induction on the path, and say of each operation
only what it makes of the child under one label.
-/

namespace AliasTaint

open Domain LawfulDomain

variable {V : Type} [Domain V]

namespace Node

/-! ## Views -/

/-- What is shown at the end of a path, given what is shown at the node where the path begins. -/
def showFrom (sink : V → V) (shown : V) : Path → Node V → V
  | [], _ => shown
  | label :: path, node =>
      showFrom sink
        (join (sinkIntoChild sink Domain.bottom shown) (node.childOrBottom label).value)
        path (node.childOrBottom label)

/-- The value that a tree shows at a path. -/
def view (sink : V → V) (node : Node V) (path : Path) : V :=
  node.showFrom sink node.value path

/-- The value that is stored at a path, bottom if no node is stored there. -/
def stored : Path → Node V → V
  | [], node => node.value
  | label :: path, node => stored path (node.childOrBottom label)

/-- What the ancestors sink into the end of a path, given what they sink into its beginning. -/
def sunkFrom (sink : V → V) (inherited : V) : Path → Node V → V
  | [], _ => inherited
  | label :: path, node =>
      sunkFrom sink (sinkIntoChild sink inherited node.value) path (node.childOrBottom label)

end Node

/-- The value that a tree shows at a path. -/
def Tree.view (sink : V → V) (tree : Tree V) (path : Path) : V :=
  tree.node.view sink path

namespace Node

private theorem showFrom_concat
    (sink : V → V) (shown : V) (path : Path) (label : PathElement) (node : Node V) :
    node.showFrom sink shown (path ++ [label]) =
      join (sinkIntoChild sink Domain.bottom (node.showFrom sink shown path))
        (node.stored (path ++ [label])) := by
  induction path generalizing shown node with
  | nil =>
      rfl
  | cons first path inductionHypothesis =>
      exact inductionHypothesis _ (node.childOrBottom first)

/-- One step further down, a tree shows what the parent passes on and what is stored there. -/
theorem view_concat
    (sink : V → V) (node : Node V) (path : Path) (label : PathElement) :
    node.view sink (path ++ [label]) =
      join (sinkIntoChild sink Domain.bottom (node.view sink path))
        (node.stored (path ++ [label])) :=
  showFrom_concat sink node.value path label node

/-- Below a node, only its children matter. -/
theorem showFrom_eq_of_children
    {node other : Node V} (sameChildren : node.children = other.children)
    (sink : V → V) (shown : V) (path : Path) :
    node.showFrom sink shown path = other.showFrom sink shown path := by
  cases path with
  | nil =>
      rfl
  | cons label path =>
      simp only [showFrom, childOrBottom, child?, sameChildren]

/-! ## Children -/

@[simp]
theorem childOrBottom_bottom (label : PathElement) :
    (bottom : Node V).childOrBottom label = bottom :=
  rfl

theorem childOrBottom_of_child?
    {node child : Node V} {label : PathElement} (found : node.child? label = some child) :
    node.childOrBottom label = child := by
  simp [childOrBottom, found]

theorem childOrBottom_of_isBottom
    {node : Node V} (isNothing : node.isBottom) (label : PathElement) :
    node.childOrBottom label = bottom := by
  have childless : node.children = [] := by
    have parts : Domain.isBottom node.value ∧ node.children.isEmpty := by
      simpa [isBottom] using isNothing
    simpa using parts.2
  simp [childOrBottom, child?, childless]

theorem isBottom_value {node : Node V} (isNothing : node.isBottom) :
    Domain.isBottom node.value := by
  have parts : Domain.isBottom node.value ∧ node.children.isEmpty := by
    simpa [isBottom] using isNothing
  exact parts.1

theorem isBottom_bottom [LawfulDomain V] : (bottom : Node V).isBottom := by
  have nothing : Domain.isBottom (Domain.bottom : V) := LawfulDomain.isBottom_bottom
  simp [isBottom, bottom, leaf, value, children, nothing]

theorem nonBottom?_eq_some_iff {node kept : Node V} :
    node.nonBottom? = some kept ↔ kept = node ∧ node.isBottom = false := by
  unfold nonBottom?
  cases node.isBottom <;> simp [eq_comm]

theorem child?_withChild
    (node child : Node V) (changed label : PathElement) :
    (node.withChild changed child).child? label =
      if label = changed then child.nonBottom? else node.child? label := by
  unfold withChild
  split
  · rename_i dropped
    rw [dropped]
    exact Entries.lookup_erase changed label node.children
  · rename_i kept isKept
    rw [isKept]
    exact Entries.lookup_insert changed label kept node.children

@[simp]
theorem value_withChild (node child : Node V) (changed : PathElement) :
    (node.withChild changed child).value = node.value := by
  unfold withChild
  split <;> rfl

/-! ## Comparing views -/

section Comparing

variable [LawfulDomain V] {sink : V → V}

theorem isBottom_stored {node : Node V} (isNothing : node.isBottom) (path : Path) :
    Domain.isBottom (node.stored path) := by
  induction path generalizing node with
  | nil =>
      exact isBottom_value isNothing
  | cons label path inductionHypothesis =>
      rw [stored, childOrBottom_of_isBottom isNothing label]
      exact inductionHypothesis isBottom_bottom

/-- A tree that stores more shows more. -/
theorem showFrom_leq_of_stored
    (monotone : MonotoneMap sink)
    {node other : Node V} {shown upper : V}
    (covered : Domain.leq shown upper)
    (storedCovered : ∀ path, Domain.leq (node.stored path) (other.stored path))
    (path : Path) :
    Domain.leq (node.showFrom sink shown path) (other.showFrom sink upper path) := by
  induction path generalizing node other shown upper with
  | nil =>
      exact covered
  | cons label path inductionHypothesis =>
      apply inductionHypothesis
      · exact join_mono (sinkIntoChild_bottom_leq monotone covered) (storedCovered [label])
      · intro below
        exact storedCovered (label :: below)

theorem showFrom_mono
    (monotone : MonotoneMap sink)
    {shown upper : V} (covered : Domain.leq shown upper) (node : Node V) (path : Path) :
    Domain.leq (node.showFrom sink shown path) (node.showFrom sink upper path) :=
  showFrom_leq_of_stored monotone covered (fun below => leq_refl (node.stored below)) path

/-- Below a node that stores nothing, a tree shows only what is passed on. -/
theorem showFrom_leq_of_isBottom
    (monotone : MonotoneMap sink)
    {node : Node V} (isNothing : node.isBottom)
    {shown upper : V} (covered : Domain.leq shown upper) (other : Node V) (path : Path) :
    Domain.leq (node.showFrom sink shown path) (other.showFrom sink upper path) :=
  showFrom_leq_of_stored monotone covered
    (fun below => leq_of_isBottom (isBottom_stored isNothing below) _) path

theorem isBottom_showFrom
    {node : Node V} (isNothing : node.isBottom)
    {shown : V} (nothingShown : Domain.isBottom shown) (path : Path) :
    Domain.isBottom (node.showFrom sink shown path) := by
  induction path generalizing node shown with
  | nil =>
      exact nothingShown
  | cons label path inductionHypothesis =>
      rw [showFrom, childOrBottom_of_isBottom isNothing label]
      refine inductionHypothesis isBottom_bottom (isBottom_join_iff.mpr ⟨?_, ?_⟩)
      · exact isBottom_sinkIntoChild
          (isBottom_join_iff.mpr ⟨LawfulDomain.isBottom_bottom, nothingShown⟩)
      · exact isBottom_value isBottom_bottom

theorem stored_leq_showFrom
    {node : Node V} {shown : V} (covered : Domain.leq node.value shown) (path : Path) :
    Domain.leq (node.stored path) (node.showFrom sink shown path) := by
  induction path generalizing node shown with
  | nil =>
      exact covered
  | cons label path inductionHypothesis =>
      exact inductionHypothesis (leq_join_right _ _)

/-- What is shown at a path covers what is stored there. -/
theorem stored_leq_view (node : Node V) (path : Path) :
    Domain.leq (node.stored path) (node.view sink path) :=
  stored_leq_showFrom (leq_refl node.value) path

private theorem showFrom_equals_sunk
    (monotone : MonotoneMap sink)
    {node : Node V} {shown inherited : V}
    (same : equals shown (join inherited node.value)) (path : Path) :
    equals (node.showFrom sink shown path)
      (join (node.sunkFrom sink inherited path) (node.stored path)) := by
  induction path generalizing node shown inherited with
  | nil =>
      exact same
  | cons label path inductionHypothesis =>
      obtain ⟨covered, covers⟩ := equals_iff.mp same
      apply inductionHypothesis
      apply equals_iff.mpr
      constructor
      · refine join_mono (sinkIntoChild_leq monotone ?_) (leq_refl _)
        exact join_leq (bottom_leq _) covered
      · refine join_mono (sinkIntoChild_leq monotone ?_) (leq_refl _)
        exact leq_join_of_leq_right _ covers

/-- A tree shows what is stored at a path, joined with what all its ancestors sink into it. -/
theorem view_equals_sunk
    (monotone : MonotoneMap sink) (node : Node V) (path : Path) :
    equals (node.view sink path)
      (join (node.sunkFrom sink Domain.bottom path) (node.stored path)) := by
  refine showFrom_equals_sunk monotone (equals_iff.mpr ⟨?_, ?_⟩) path
  · exact leq_join_right _ _
  · exact join_leq (bottom_leq _) (leq_refl _)

end Comparing

/-! ## The children of a merge -/

theorem value_merge
    (sink : V → V) (op : MergeOp) (inherited : Inherited V) (left right : Node V) :
    (merge sink op inherited left right).value = op.store inherited left.value right.value := by
  cases left
  rfl

/-- What a merge passes down for its result is what the result sinks into its children. -/
theorem result_inherit
    (sink : V → V) (op : MergeOp) (inherited : Inherited V) (left right : Node V) :
    (op.inherit sink inherited left.value right.value).result =
      sinkIntoChild sink inherited.result (merge sink op inherited left right).value := by
  rw [value_merge]
  rfl

theorem child?_merge
    (sink : V → V) (op : MergeOp) (inherited : Inherited V) {left right : Node V}
    (leftOrdered : left.Ordered) (rightOrdered : right.Ordered) (label : PathElement) :
    (merge sink op inherited left right).child? label =
      if (left.child? label).isSome || (right.child? label).isSome then
        mergedChild? sink op (op.inherit sink inherited left.value right.value)
          (left.childOrBottom label) (right.childOrBottom label)
      else
        none := by
  cases left with
  | mk leftValue leftChildren =>
      have leftIncreasing : Entries.Increasing leftChildren := leftOrdered.increasing
      have leftFound : (mk leftValue leftChildren).child? label = leftChildren.lookup label := rfl
      have rightFound : right.child? label = right.children.lookup label := rfl
      rw [merge, mergeLeftChildren_eq_filterMapValues, mergeRightChildren_eq_filterMapValues]
      refine (leftIncreasing.lookup_woven rightOrdered.increasing _ _ label).trans ?_
      simp only [childOrBottom, leftFound, rightFound]
      cases leftChildren.lookup label with
      | some leftChild =>
          simp [value]
      | none =>
          cases right.children.lookup label <;> simp [value]

/-- What a merge makes of two children under a label. -/
inductive MergedChild (sink : V → V) (op : MergeOp) (inherited : Inherited V)
    (left right : Node V) : Option (Node V) → Prop
  | dropped (lower : op.isUpper = false)
      (oneSideEmpty :
        (left.isBottom ∧ Domain.isBottom inherited.left) ∨
          (right.isBottom ∧ Domain.isBottom inherited.right)) :
      MergedChild sink op inherited left right none
  | keptLeft (trusted : op.trustsSides)
      (nothingInherited : Domain.isBottom inherited.result) (rightEmpty : right.isBottom) :
      MergedChild sink op inherited left right (some left)
  | keptRight (trusted : op.trustsSides)
      (nothingInherited : Domain.isBottom inherited.result) (leftEmpty : left.isBottom) :
      MergedChild sink op inherited left right (some right)
  | merged (filled : (merge sink op inherited left right).isBottom = false) :
      MergedChild sink op inherited left right (some (merge sink op inherited left right))
  | pruned (empty : (merge sink op inherited left right).isBottom) :
      MergedChild sink op inherited left right none

theorem mergedChild_mergedChild?
    (sink : V → V) (op : MergeOp) (inherited : Inherited V) (left right : Node V) :
    MergedChild sink op inherited left right (mergedChild? sink op inherited left right) := by
  by_cases keepsLeft :
      (op.trustsSides && Domain.isBottom inherited.result && right.isBottom) = true
  · have branch : op.branch inherited left right = .keepLeft := by
      simp [MergeOp.branch, keepsLeft]
    simp only [Bool.and_eq_true] at keepsLeft
    rw [mergedChild?, branch]
    exact .keptLeft keepsLeft.1.1 keepsLeft.1.2 keepsLeft.2
  by_cases keepsRight :
      (op.trustsSides && Domain.isBottom inherited.result && left.isBottom) = true
  · have branch : op.branch inherited left right = .keepRight := by
      simp only [MergeOp.branch, keepsLeft, keepsRight, if_true, Bool.false_eq_true, if_false]
    simp only [Bool.and_eq_true] at keepsRight
    rw [mergedChild?, branch]
    exact .keptRight keepsRight.1.1 keepsRight.1.2 keepsRight.2
  by_cases drops :
      (!op.isUpper &&
        (left.isBottom && Domain.isBottom inherited.left ||
          right.isBottom && Domain.isBottom inherited.right)) = true
  · have branch : op.branch inherited left right = .drop := by
      simp only [MergeOp.branch, keepsLeft, keepsRight, drops, if_true, Bool.false_eq_true,
        if_false]
    simp only [Bool.and_eq_true, Bool.or_eq_true, Bool.not_eq_true'] at drops
    rw [mergedChild?, branch]
    exact .dropped drops.1 drops.2
  have branch : op.branch inherited left right = .merge := by
    simp only [MergeOp.branch, keepsLeft, keepsRight, drops, Bool.false_eq_true, if_false]
  rw [mergedChild?, branch]
  cases empty : (merge sink op inherited left right).isBottom with
  | true =>
      simpa [nonBottom?, empty] using MergedChild.pruned empty
  | false =>
      simpa [nonBottom?, empty] using MergedChild.merged empty

/-- Under a label that neither side binds, a merge stores nothing. -/
theorem childOrBottom_merge
    (sink : V → V) (op : MergeOp) (inherited : Inherited V) {left right : Node V}
    (leftOrdered : left.Ordered) (rightOrdered : right.Ordered) (label : PathElement) :
    (left.childOrBottom label = bottom ∧ right.childOrBottom label = bottom ∧
      (merge sink op inherited left right).childOrBottom label = bottom) ∨
    ∃ found,
      MergedChild sink op (op.inherit sink inherited left.value right.value)
        (left.childOrBottom label) (right.childOrBottom label) found ∧
      (merge sink op inherited left right).childOrBottom label = found.getD bottom := by
  have unfolded : (merge sink op inherited left right).childOrBottom label =
      ((merge sink op inherited left right).child? label).getD bottom := rfl
  rw [unfolded, child?_merge sink op inherited leftOrdered rightOrdered label]
  split
  · exact Or.inr ⟨_, mergedChild_mergedChild? _ _ _ _ _, rfl⟩
  · rename_i neither
    have absent : left.child? label = none ∧ right.child? label = none := by
      simpa using neither
    exact Or.inl ⟨by simp [childOrBottom, absent.1], by simp [childOrBottom, absent.2], rfl⟩

end Node

end AliasTaint
