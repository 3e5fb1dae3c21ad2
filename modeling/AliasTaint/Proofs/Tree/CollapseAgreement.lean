import AliasTaint.Proofs.Tree.Fresh
import AliasTaint.Proofs.Tree.Hoist
import AliasTaint.Proofs.Tree.Observed
import AliasTaint.Proofs.Value.CollapseDepth

/-!
# Three ways to collapse a tree

A collapse gives one value, the value of the root joined with the marked values from everywhere
below it.  The same value is left in a tree that takes in everything below its root, and in a tree
that is collapsed at depth zero; neither has any children left.

The marks are arbitrary functions.  They are applied to the values that are stored below the root,
and to no others: not to the value of the root, and not to bottom, whatever a mark would make of it.
-/

namespace AliasTaint

open Domain LawfulDomain

variable {V : Type}

namespace Node

/-! ## The values below a node -/

private theorem perm_valuesDownOf_of_children {children : List (PathElement × Node V)}
    (inside : ∀ entry ∈ children, entry.2.valuesDown.Perm (entry.2.nodes.map Prod.snd)) :
    (valuesDownOf children).Perm ((nodesOf children).map Prod.snd) := by
  induction children with
  | nil =>
      exact List.Perm.nil
  | cons entry rest inductionHypothesis =>
      obtain ⟨entryInside, restInside⟩ := List.forall_mem_cons.mp inside
      rw [valuesDownOf, nodesOf, List.map_append, List.map_map]
      exact List.perm_append_comm.trans (entryInside.append (inductionHypothesis restInside))

/-- Going down from the last child to the first, the same values are met as on a walk from the first
child to the last. -/
theorem perm_valuesDown (node : Node V) : node.valuesDown.Perm (node.nodes.map Prod.snd) := by
  induction node using Node.induction with
  | step value children inductionHypothesis =>
      rw [valuesDown, nodes, List.map_cons]
      exact (perm_valuesDownOf_of_children inductionHypothesis).cons value

theorem perm_valuesDownOf (children : List (PathElement × Node V)) :
    (valuesDownOf children).Perm ((nodesOf children).map Prod.snd) :=
  perm_valuesDownOf_of_children fun entry _ => perm_valuesDown entry.2

variable [Domain V]

/-- The nodes that a walk meets below the root are those of the children. -/
theorem filter_visit_eq (node : Node V) :
    (node.visit.filter fun stored => stored.1 ≠ []) =
      (nodesOf node.children).filter fun stored => !Domain.isBottom stored.2 := by
  cases node with
  | mk value children =>
      have below : (nodesOf children).filter (fun stored => decide (stored.1 ≠ [])) =
          nodesOf children :=
        List.filter_eq_self.mpr fun stored member => decide_eq_true (ne_nil_of_mem_nodesOf member)
      rw [visit, List.filter_comm, nodes, List.filter_cons, below]
      rfl

/-! ## Gathering marked values -/

/-- Each gathered value counts as its mark, and bottom does not count. -/
theorem gathered_leq_iff [LawfulDomain V] (mark : V → V) {values : List V} {gathered upper : V} :
    Domain.leq (values.foldl (gather mark) gathered) upper ↔
      Domain.leq gathered upper ∧
        ∀ value ∈ values, Domain.isBottom value = false → Domain.leq (mark value) upper := by
  induction values generalizing gathered with
  | nil =>
      simp
  | cons value rest inductionHypothesis =>
      rw [List.foldl_cons, inductionHypothesis, List.forall_mem_cons, ← and_assoc]
      refine and_congr_left fun _ => ?_
      unfold gather
      cases Domain.isBottom value with
      | true =>
          simp
      | false =>
          simp [join_leq_iff]

theorem collapseDeeperThan_zero [LawfulDomain V] [AntisymmetricDomain V]
    (sink mark : V → V) (node : Node V) :
    node.collapseDeeperThan sink 0 mark = leaf (node.collapse mark) := by
  have cumulative : CumulativeDomain V := SemilatticeOn.cumulative semilatticeOn_true
  rw [collapseDeeperThan, flattenAt_zero]
  exact NormalUnder.normalize_eq (ordered_leaf _) (normalUnder_leaf _)

end Node

namespace Tree

variable [Domain V]

/-- The values above bottom that are stored below the root. -/
def below (tree : Tree V) : List V :=
  (tree.visit.filter fun stored => stored.1 ≠ []).map Prod.snd

theorem mem_below_iff {tree : Tree V} {value : V} :
    value ∈ tree.below ↔
      value ∈ Node.valuesDownOf tree.node.children ∧ Domain.isBottom value = false := by
  have walked := (Node.perm_valuesDownOf tree.node.children).mem_iff (a := value)
  rw [below, visit, Node.filter_visit_eq, walked]
  simp only [List.mem_map, List.mem_filter, Bool.not_eq_true']
  constructor
  · rintro ⟨stored, ⟨member, filled⟩, rfl⟩
    exact ⟨⟨stored, member, rfl⟩, filled⟩
  · rintro ⟨⟨stored, member, rfl⟩, filled⟩
    exact ⟨stored, ⟨member, filled⟩, rfl⟩

theorem flatten_eq_leaf (mark : V → V) (tree : Tree V) :
    tree.flatten mark = leaf (tree.collapse mark) :=
  congrArg leaf (Node.absorbAll_eq_foldl mark tree.node.children tree.node.value)

variable [LawfulDomain V] [AntisymmetricDomain V]

theorem collapseDeeperThan_zero_eq_leaf (sink mark : V → V) (tree : Tree V) :
    tree.collapseDeeperThan sink 0 mark = leaf (tree.collapse mark) :=
  ext_node (Node.collapseDeeperThan_zero sink mark tree.node)

theorem collapse_eq_join_below (mark : V → V) (tree : Tree V) :
    tree.collapse mark = Domain.join tree.root (joinAll (tree.below.map mark)) := by
  have sameBounds (upper : V) : Domain.leq (tree.collapse mark) upper ↔
      Domain.leq (Domain.join tree.root (joinAll (tree.below.map mark))) upper := by
    rw [join_leq_iff, joinAll_leq_iff, List.forall_mem_map]
    simp only [mem_below_iff, and_imp]
    exact Node.gathered_leq_iff mark
  -- The walk and the collapse meet the values in different orders, which no upper bound can tell.
  exact AntisymmetricDomain.antisymm ((sameBounds _).mpr (leq_refl _))
    ((sameBounds _).mp (leq_refl _))

/-- A collapse leaves the tree as it is and gives the value that the two collapses in place leave at
the root, where they leave no children.  It is the value of the root joined with the marks of all
values above bottom that are stored below the root. -/
theorem collapses_agree (sink mark : V → V) (tree : Tree V) :
    tree.collapse mark = (tree.flatten mark).root ∧
    tree.collapse mark = (tree.collapseDeeperThan sink 0 mark).root ∧
    (tree.flatten mark).labels = [] ∧
    (tree.collapseDeeperThan sink 0 mark).labels = [] ∧
    tree.collapse mark = Domain.join tree.root (joinAll (tree.below.map mark)) := by
  rw [flatten_eq_leaf, collapseDeeperThan_zero_eq_leaf]
  exact ⟨rfl, rfl, rfl, rfl, collapse_eq_join_below mark tree⟩

/-- A depth at the root and one two steps below, with a node in between that stores nothing. -/
def gappedTree : Tree CollapseDepth :=
  ofEdges id [([], .level 9), ([.anyIndex, .anyIndex], .level 5)]

/-- A mark that would make the greatest value of bottom. -/
def sevenUnlessBottom : CollapseDepth → CollapseDepth
  | .bottom => .collapse
  | .level _ => .level 7

/-- Neither the root nor the node that stores nothing is marked. -/
theorem collapses_agree_gapped :
    gappedTree.nodes =
      [([], .level 9), ([.anyIndex], .bottom), ([.anyIndex, .anyIndex], .level 5)] ∧
    gappedTree.collapse sevenUnlessBottom = .level 7 ∧
    (gappedTree.flatten sevenUnlessBottom).root = .level 7 ∧
    (gappedTree.collapseDeeperThan id 0 sevenUnlessBottom).root = .level 7 ∧
    (gappedTree.flatten sevenUnlessBottom).labels = [] ∧
    (gappedTree.collapseDeeperThan id 0 sevenUnlessBottom).labels = [] := by
  obtain ⟨asFlattened, asCollapsed, flattened, collapsed, isJoin⟩ :=
    collapses_agree id sevenUnlessBottom gappedTree
  have stored : gappedTree.nodes =
      [([], .level 9), ([.anyIndex], .bottom), ([.anyIndex, .anyIndex], .level 5)] := by cbv
  have isRoot : gappedTree.root = .level 9 := by cbv
  have isBelow : gappedTree.below = [.level 5] := by cbv
  have isSeven : gappedTree.collapse sevenUnlessBottom = .level 7 := by
    rw [isJoin, isRoot, isBelow]
    rfl
  exact ⟨stored, isSeven, asFlattened.symm.trans isSeven, asCollapsed.symm.trans isSeven,
    flattened, collapsed⟩

end Tree

end AliasTaint
