import AliasTaint.PointsTo.Tree
import AliasTaint.Proofs.Taint.Equality
import AliasTaint.Proofs.Tree.Fresh

/-!
# The elements of a tree

The elements of a tree are the values above bottom that it stores, with their paths.  A walk lists
each of them once, and a tree is built again by writing its elements in any order.

Between two writes the tree that is built stores some of the values of the normal tree it will
become, and sinks no more than that tree into any node.  So every value is still fresh when it is
written, and the write stores it at its path and changes nothing else.  No value is joined to
another one but bottom, and the values need not be well-formed for that.
-/

namespace AliasTaint

open Domain

variable {V : Type} [Domain V]

namespace Node

/-! ## Walks -/

omit [Domain V] in
private theorem perm_nodesUpOf {children : List (PathElement × Node V)}
    (inside : ∀ entry ∈ children, entry.2.nodesUp.Perm entry.2.nodes) :
    (nodesUpOf children).Perm (nodesOf children) := by
  induction children with
  | nil =>
      exact .refl _
  | cons entry rest inductionHypothesis =>
      obtain ⟨childPerm, restPerm⟩ := List.forall_mem_cons.mp inside
      exact (childPerm.map _).append (inductionHypothesis restPerm)

omit [Domain V] in
theorem perm_nodesUp (node : Node V) : node.nodesUp.Perm node.nodes := by
  induction node using Node.induction with
  | step value children inductionHypothesis =>
      rw [nodesUp, nodes]
      exact (List.perm_append_singleton _ _).trans ((perm_nodesUpOf inductionHypothesis).cons _)

omit [Domain V] in
private theorem childrenFirst_nodesUpOf {children : List (PathElement × Node V)}
    (increasing : Entries.Increasing children)
    (inside : ∀ entry ∈ children,
      entry.2.nodesUp.Pairwise fun earlier later => ¬ earlier.1 <+: later.1) :
    (nodesUpOf children).Pairwise fun earlier later => ¬ earlier.1 <+: later.1 := by
  induction children with
  | nil =>
      exact .nil
  | cons entry rest inductionHypothesis =>
      obtain ⟨label, child⟩ := entry
      obtain ⟨smaller, restIncreasing⟩ := List.pairwise_cons.mp increasing
      obtain ⟨childFirst, restInside⟩ := List.forall_mem_cons.mp inside
      refine List.pairwise_append.mpr ⟨?_, inductionHypothesis restIncreasing restInside, ?_⟩
      · refine List.pairwise_map.mpr (childFirst.imp ?_)
        intro earlier later notAbove isAbove
        exact notAbove (List.cons_prefix_cons.mp isAbove).2
      · intro earlier earlierMember later laterMember isAbove
        obtain ⟨found, _, rfl⟩ := List.mem_map.mp earlierMember
        have listed := (perm_nodesUpOf fun entry _ => perm_nodesUp entry.2).mem_iff.mp laterMember
        obtain ⟨other, otherMember, below, _, rfl⟩ := mem_nodesOf.mp listed
        have sameLabel : label = other.1 := (List.cons_prefix_cons.mp isAbove).1
        exact Entries.ne_of_smaller (smaller other otherMember) sameLabel

omit [Domain V] in
/-- In the walk that goes up, no node is followed by one that it is above of. -/
theorem childrenFirst_nodesUp {node : Node V} (ordered : node.Ordered) :
    node.nodesUp.Pairwise fun earlier later => ¬ earlier.1 <+: later.1 := by
  induction node using Node.induction with
  | step value children inductionHypothesis =>
      rw [nodesUp]
      refine List.pairwise_append.mpr
        ⟨childrenFirst_nodesUpOf ordered.increasing ?_, List.pairwise_singleton _ _, ?_⟩
      · intro entry member
        exact inductionHypothesis entry member (ordered.children entry member)
      · intro earlier earlierMember later atRoot isAbove
        have listed := (perm_nodesUpOf fun entry _ => perm_nodesUp entry.2).mem_iff.mp earlierMember
        obtain ⟨entry, _, below, _, rfl⟩ := mem_nodesOf.mp listed
        rw [List.mem_singleton.mp atRoot] at isAbove
        exact absurd (List.prefix_nil.mp isAbove) (List.cons_ne_nil _ _)

theorem perm_visitUp (node : Node V) : node.visitUp.Perm node.visit :=
  (perm_nodesUp node).filter _

theorem childrenFirst_visitUp {node : Node V} (ordered : node.Ordered) :
    node.visitUp.Pairwise fun earlier later => ¬ earlier.1 <+: later.1 :=
  (childrenFirst_nodesUp ordered).filter _

theorem increasing_visit {node : Node V} (ordered : node.Ordered) :
    Entries.Increasing node.visit :=
  (increasing_nodes ordered).filter _

theorem mem_visit_iff_descend? {node : Node V} (ordered : node.Ordered) {path : Path} {value : V} :
    (path, value) ∈ node.visit ↔
      (∃ below, node.descend? path = some below ∧ below.value = value) ∧
        Domain.isBottom value = false := by
  rw [visit, List.mem_filter, mem_nodes_iff_descend? ordered, Bool.not_eq_true']

end Node

namespace Tree

/-! ## Building a tree again -/

variable [CumulativeDomain V] {sink : V → V}

/-- A pruned tree that stores nothing but values of another tree, at the same paths. -/
structure PartOf (part tree : Tree V) : Prop where
  pruned : part.node.Pruned
  stored (path : Path) : part.node.stored path = Domain.bottom ∨
    part.node.stored path = tree.node.stored path

/-- The stored values after the value of one more path is taken over. -/
theorem PartOf.stored_write (grows : SinksMonotone sink) {part tree : Tree V}
    (normal : tree.Normal sink) (isPart : part.PartOf tree) {path : Path}
    (absent : part.node.stored path = Domain.bottom) (other : Path) :
    (part.write sink path (tree.node.stored path) .weak).node.stored other =
      if other = path then tree.node.stored path else part.node.stored other := by
  have joined (other : Path) :
      Domain.join (part.node.stored other)
          (if other = path then tree.node.stored path else Domain.bottom) =
        if other = path then tree.node.stored path else part.node.stored other := by
    split
    · rename_i same
      rw [same, absent, CumulativeDomain.bottom_join]
    · exact CumulativeDomain.join_bottom _
  have fresh := ((Node.normalUnder_iff_fresh CumulativeDomain.isBottom_bottom).mp normal).2
  rw [← joined]
  refine Node.stored_graftUnder_of_fresh part.ordered (fresh.of_part grows ?_) other
  intro other
  rw [joined]
  split
  · rename_i same
    exact Or.inr (by rw [same])
  · exact isPart.stored other

theorem PartOf.write (grows : SinksMonotone sink) {part tree : Tree V}
    (normal : tree.Normal sink) (isPart : part.PartOf tree) {path : Path}
    (absent : part.node.stored path = Domain.bottom) :
    (part.write sink path (tree.node.stored path) .weak).PartOf tree where
  pruned := Node.Pruned.graftUnder sink (Node.ordered_leaf _) (Node.pruned_leaf _) path _
    part.ordered isPart.pruned
  stored other := by
    rw [isPart.stored_write grows normal absent]
    split
    · rename_i same
      exact Or.inr (by rw [same])
    · exact isPart.stored other

/-- Writing elements of a tree onto a part of it adds just these elements. -/
theorem PartOf.foldl_write (grows : SinksMonotone sink) {tree : Tree V}
    (normal : tree.Normal sink) {edges : List (Path × V)}
    (distinct : (edges.map Prod.fst).Nodup)
    (areStored : ∀ path value, (path, value) ∈ edges → tree.node.stored path = value)
    {part : Tree V} (isPart : part.PartOf tree)
    (absent : ∀ path ∈ edges.map Prod.fst, part.node.stored path = Domain.bottom) :
    let built := edges.foldl (fun tree edge => tree.write sink edge.1 edge.2 .weak) part
    built.PartOf tree ∧
      (∀ path ∈ edges.map Prod.fst, built.node.stored path = tree.node.stored path) ∧
      (∀ path, path ∉ edges.map Prod.fst → built.node.stored path = part.node.stored path) := by
  induction edges generalizing part with
  | nil =>
      exact ⟨isPart, nofun, fun _ _ => rfl⟩
  | cons edge rest inductionHypothesis =>
      obtain ⟨path, value⟩ := edge
      rw [List.map_cons] at distinct absent ⊢
      obtain ⟨notLater, restDistinct⟩ := List.nodup_cons.mp distinct
      obtain ⟨absentHere, absentLater⟩ := List.forall_mem_cons.mp absent
      obtain rfl : tree.node.stored path = value := areStored path value List.mem_cons_self
      have written := isPart.stored_write grows normal absentHere
      have stillAbsent : ∀ other ∈ rest.map Prod.fst,
          (part.write sink path (tree.node.stored path) .weak).node.stored other =
            Domain.bottom := by
        intro other later
        rw [written, if_neg (ne_of_mem_of_not_mem later notLater)]
        exact absentLater other later
      obtain ⟨restPart, restAdded, restKept⟩ := inductionHypothesis restDistinct
        (fun other value later => areStored other value (List.mem_cons_of_mem _ later))
        (isPart.write grows normal absentHere) stillAbsent
      refine ⟨restPart, List.forall_mem_cons.mpr ⟨?_, restAdded⟩, ?_⟩
      · exact (restKept path notLater).trans ((written path).trans (if_pos rfl))
      · intro other unlisted
        obtain ⟨different, notInRest⟩ := not_or.mp (mt List.mem_cons.mpr unlisted)
        exact (restKept other notInRest).trans ((written other).trans (if_neg different))

/-- A normal tree is built from its elements, in whatever order they are written. -/
theorem ofEdges_eq_of_perm_visit (grows : SinksMonotone sink) {tree : Tree V}
    (normal : tree.Normal sink) {edges : List (Path × V)} (listed : edges.Perm tree.visit) :
    ofEdges sink edges = tree := by
  have nothing : Domain.isBottom (Domain.bottom : V) := CumulativeDomain.isBottom_bottom
  have mem_edges_iff {path : Path} {value : V} : (path, value) ∈ edges ↔
      tree.node.stored path = value ∧ Domain.isBottom value = false :=
    listed.mem_iff.trans (Node.mem_visit_iff nothing tree.ordered)
  have distinct : (edges.map Prod.fst).Nodup := by
    refine (listed.map Prod.fst).nodup_iff.mpr (List.Pairwise.map Prod.fst ?_
      (Node.increasing_visit tree.ordered))
    exact fun earlier later smaller => Entries.ne_of_smaller smaller
  have empty : (bottom : Tree V).PartOf tree :=
    ⟨Node.pruned_bottom, fun path => Or.inl (Node.stored_bottom path)⟩
  obtain ⟨isPart, added, kept⟩ := PartOf.foldl_write grows normal distinct
    (fun path value member => (mem_edges_iff.mp member).1) empty
    (fun path _ => Node.stored_bottom path)
  refine ext_node (isPart.pruned.eq_of_stored_eq nothing (ordered _) tree.ordered
    (Node.NormalUnder.pruned normal) ?_)
  intro path
  by_cases isListed : path ∈ edges.map Prod.fst
  · exact added path isListed
  · refine (kept path isListed).trans ?_
    cases filled : Domain.isBottom (tree.node.stored path) with
    | true =>
        rw [CumulativeDomain.isBottom_iff.mp filled]
        exact Node.stored_bottom path
    | false =>
        exact absurd (List.mem_map_of_mem (mem_edges_iff.mpr ⟨rfl, filled⟩)) isListed

/-- One list has each element of a tree once, in the order of the paths, and the other has them in
an order in which every node comes after all nodes below it. -/
structure Walked (tree : Tree V) (down up : List (Path × V)) : Prop where
  mem_iff (path : Path) (value : V) : (path, value) ∈ down ↔
    (∃ below, tree.node.descend? path = some below ∧ below.value = value) ∧
      Domain.isBottom value = false
  increasing : down.Pairwise fun earlier later => compare earlier.1 later.1 = .lt
  perm : up.Perm down
  childrenFirst : up.Pairwise fun earlier later => ¬ earlier.1 <+: later.1

omit [CumulativeDomain V] in
theorem walked_visit (tree : Tree V) : tree.Walked tree.visit tree.visitUp where
  mem_iff _ _ := Node.mem_visit_iff_descend? tree.ordered
  increasing := Node.increasing_visit tree.ordered
  perm := Node.perm_visitUp tree.node
  childrenFirst := Node.childrenFirst_visitUp tree.ordered

end Tree

/-- The walks through a tree list its elements, and a normal tree is built from its elements again,
in whatever order they are written. -/
theorem elements_rebuild_tree (heuristics : Heuristics) :
    (∀ tree : TaintTree heuristics, tree.tree.Normal TaintTree.policy.sink →
      tree.tree.Walked tree.visit tree.visitUp ∧
      ∀ edges, edges.Perm tree.visit → TaintTree.ofEdges edges = tree) ∧
    (∀ tree : PointsToTree heuristics, tree.tree.Normal PointsToTree.policy.sink →
      tree.tree.Walked tree.visit tree.visitUp ∧
      ∀ edges, edges.Perm tree.visit → PointsToTree.ofEdges edges = tree) := by
  refine ⟨?taint, ?aliases⟩
  case taint =>
    intro tree normal
    refine ⟨tree.tree.walked_visit, ?_⟩
    intro edges listed
    exact congrArg TaintTree.mk
      (Tree.ofEdges_eq_of_perm_visit sinksMonotone_unchanged normal listed)
  case aliases =>
    intro tree normal
    refine ⟨tree.tree.walked_visit, ?_⟩
    intro edges listed
    exact congrArg PointsToTree.mk
      (Tree.ofEdges_eq_of_perm_visit sinksMonotone_nothing normal listed)

/-- A tree whose elements repeat what its root shows is built again from below. -/
theorem elements_rebuild_tree_repeated :
    let tree := TaintTree.ofEdges TaintTree.rootBetween
    tree.tree.Normal TaintTree.policy.sink ∧
      tree.visit.reverse.map Prod.fst = [[.anyIndex], []] ∧
      TaintTree.ofEdges tree.visit.reverse = tree := by
  have formed : ∀ edge ∈ TaintTree.rootBetween, edge.2.WellFormed := of_decide_eq_true (by cbv)
  have normal := (TaintTree.normal_ofEdges formed).normal
  exact ⟨normal, of_decide_eq_true (by cbv),
    ((elements_rebuild_tree .standard).1 _ normal).2 _ (List.reverse_perm _)⟩

end AliasTaint
