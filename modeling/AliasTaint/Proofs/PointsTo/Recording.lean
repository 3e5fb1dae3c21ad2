import AliasTaint.Proofs.PointsTo.Edges
import AliasTaint.Proofs.Tree.Fresh
import Mathlib.Data.List.Induction

/-!
# Recording aliases

A normal points-to tree is known from the sets that it stores, since nothing sinks in it, and a
join of such trees stores the join of their sets at every path.  So joins of points-to trees obey the
laws of joins of points-to sets, and the aliases of a root are the join of all trees that are
recorded for it, in whatever order that is done.
-/

namespace AliasTaint

open Domain

variable {V : Type} [Domain V] [CumulativeDomain V]

/-! ## Trees in which nothing sinks -/

omit [CumulativeDomain V] in
theorem sunkAlong_nothing (values : Path → V) (path : Path) :
    sunkAlong (fun _ => bottom) bottom values path = bottom := by
  induction path generalizing values with
  | nil =>
      rfl
  | cons label path inductionHypothesis =>
      rw [sunkAlong, sinkIntoChild_nothing]
      exact inductionHypothesis _

/-- Where nothing sinks, the values that are not covered by bottom are fresh. -/
theorem fresh_nothing_iff {values : Path → V} :
    Fresh (fun _ => bottom) bottom values ↔
      ∀ path, leq (values path) bottom → values path = bottom := by
  unfold Fresh
  refine forall_congr' fun path => ?_
  rw [sunkAlong_nothing, ← CumulativeDomain.isBottom_iff]
  cases isBottom (values path) <;> cases leq (values path) bottom <;> simp

theorem Fresh.join_nothing {left right : Path → V}
    (leftFresh : Fresh (fun _ => bottom) bottom left)
    (rightFresh : Fresh (fun _ => bottom) bottom right) :
    Fresh (fun _ => bottom) bottom fun path => join (left path) (right path) := by
  rw [fresh_nothing_iff] at leftFresh rightFresh ⊢
  intro path covered
  have leftCovered := CumulativeDomain.leq_trans (CumulativeDomain.leq_join_left _ _) covered
  rw [CumulativeDomain.join_comm] at covered
  have rightCovered := CumulativeDomain.leq_trans (CumulativeDomain.leq_join_left _ _) covered
  rw [leftFresh path leftCovered, rightFresh path rightCovered, CumulativeDomain.join_bottom]

/-- Where nothing sinks, a tree that stores no more at any path is covered. -/
theorem Node.leqUnder_of_stored_leq {left : Node V} (ordered : left.Ordered)
    {right : Option (Node V)}
    (storedCovered : ∀ path, Domain.leq (left.stored path) ((right.getD Node.bottom).stored path)) :
    leqUnder (fun _ => Domain.bottom) Domain.bottom left right := by
  induction left using Node.induction generalizing right with
  | step value children inductionHypothesis =>
      rw [leqUnder_mk, Bool.and_eq_true, leqChildren_iff, sinkIntoChild_nothing,
        shownAt_bottom]
      refine ⟨storedCovered [], ?_⟩
      rintro ⟨label, child⟩ member
      refine inductionHypothesis (label, child) member (ordered.children _ member) ?_
      intro path
      have found : (mk value children).child? label = some child :=
        ordered.increasing.lookup_eq_some_iff.mpr member
      have covered := storedCovered (label :: path)
      rwa [stored, stored, childOrBottom_of_child? found, childOrBottom_getD] at covered

variable {heuristics : Heuristics}

namespace PointsToTree

/-! ## Normal points-to trees -/

/-- No set that is stored is covered by bottom, and no child stores nothing. -/
def Normal (tree : PointsToTree heuristics) : Prop :=
  tree.tree.Normal policy.sink

theorem normal_iff {tree : PointsToTree heuristics} :
    tree.Normal ↔ tree.tree.node.Pruned ∧ Fresh policy.sink Domain.bottom tree.targetsAt :=
  Node.normalUnder_iff_fresh rfl

theorem Normal.ext_targetsAt {left right : PointsToTree heuristics}
    (leftNormal : left.Normal) (rightNormal : right.Normal)
    (sameTargets : ∀ path, left.targetsAt path = right.targetsAt path) : left = right := by
  have sameNode := Node.Pruned.eq_of_stored_eq rfl left.tree.ordered right.tree.ordered
    (normal_iff.mp leftNormal).1 (normal_iff.mp rightNormal).1 sameTargets
  exact congrArg mk (Tree.ext_node sameNode)

theorem targetsAt_bottom (path : Path) :
    (bottom : PointsToTree heuristics).targetsAt path = Domain.bottom :=
  Node.stored_bottom path

theorem normal_bottom : (bottom : PointsToTree heuristics).Normal := by
  refine normal_iff.mpr ⟨Node.pruned_bottom, fresh_nothing_iff.mpr ?_⟩
  exact fun path _ => targetsAt_bottom path

/-- A well-formed set is covered by bottom only if it is bottom. -/
theorem normal_leaf {set : PointsToSet heuristics} (formed : set.WellFormed) :
    (leaf set).Normal := by
  refine normal_iff.mpr ⟨Node.pruned_leaf set, fresh_nothing_iff.mpr ?_⟩
  intro path covered
  have setFormed : ((leaf set).targetsAt path).WellFormed :=
    Node.Stores.stored JoinClosed.bottom (Node.stores_leaf formed) path
  exact SemilatticeOn.eq_bottom_of_leq setFormed covered

theorem targetsAt_join {left right : PointsToTree heuristics}
    (leftNormal : left.Normal) (rightNormal : right.Normal) (path : Path) :
    (left.join right).targetsAt path = Domain.join (left.targetsAt path) (right.targetsAt path) :=
  Node.stored_merge_of_fresh left.tree.ordered right.tree.ordered
    ((normal_iff.mp leftNormal).2.join_nothing (normal_iff.mp rightNormal).2) path

theorem Normal.join {left right : PointsToTree heuristics}
    (leftNormal : left.Normal) (rightNormal : right.Normal) : (left.join right).Normal := by
  obtain ⟨leftPruned, leftFresh⟩ := normal_iff.mp leftNormal
  obtain ⟨rightPruned, rightFresh⟩ := normal_iff.mp rightNormal
  refine normal_iff.mpr ⟨?_, ?_⟩
  · exact Node.Pruned.merge policy.sink .join .nothing left.tree.ordered right.tree.ordered
      leftPruned rightPruned
  · have joined : (left.join right).targetsAt =
        fun path => Domain.join (left.targetsAt path) (right.targetsAt path) :=
      funext (targetsAt_join leftNormal rightNormal)
    rw [joined]
    exact leftFresh.join_nothing rightFresh

theorem join_comm {left right : PointsToTree heuristics}
    (leftNormal : left.Normal) (rightNormal : right.Normal) :
    left.join right = right.join left := by
  refine (leftNormal.join rightNormal).ext_targetsAt (rightNormal.join leftNormal) fun path => ?_
  rw [targetsAt_join leftNormal rightNormal, targetsAt_join rightNormal leftNormal,
    CumulativeDomain.join_comm]

theorem join_assoc {first second third : PointsToTree heuristics}
    (firstNormal : first.Normal) (secondNormal : second.Normal) (thirdNormal : third.Normal) :
    (first.join second).join third = first.join (second.join third) := by
  have leftNormal := firstNormal.join secondNormal
  have rightNormal := secondNormal.join thirdNormal
  refine (leftNormal.join thirdNormal).ext_targetsAt (firstNormal.join rightNormal) fun path => ?_
  rw [targetsAt_join leftNormal thirdNormal, targetsAt_join firstNormal secondNormal,
    targetsAt_join firstNormal rightNormal, targetsAt_join secondNormal thirdNormal,
    CumulativeDomain.join_assoc]

theorem WellFormed.targetsAt {tree : PointsToTree heuristics} (formed : tree.WellFormed)
    (path : Path) : (tree.targetsAt path).WellFormed :=
  Node.Stores.stored JoinClosed.bottom formed path

theorem join_self {tree : PointsToTree heuristics} (normal : tree.Normal)
    (formed : tree.WellFormed) : tree.join tree = tree := by
  refine (normal.join normal).ext_targetsAt normal fun path => ?_
  have setFormed := formed.targetsAt path
  rw [targetsAt_join normal normal]
  exact SemilatticeOn.join_eq_of_leq setFormed setFormed (SemilatticeOn.leq_refl setFormed)

theorem leq_refl (tree : PointsToTree heuristics) : tree.leq tree :=
  Node.leqUnder_of_stored_leq tree.tree.ordered fun _ => CumulativeDomain.leq_refl _

/-- Normal trees of well-formed sets are equal in the order only if they are the same. -/
theorem equals_iff_eq {left right : PointsToTree heuristics}
    (leftNormal : left.Normal) (rightNormal : right.Normal)
    (leftFormed : left.WellFormed) (rightFormed : right.WellFormed) :
    left.equals right ↔ left = right := by
  constructor
  · intro same
    obtain ⟨leftCovered, rightCovered⟩ := Bool.and_eq_true_iff.mp same
    refine leftNormal.ext_targetsAt rightNormal fun path => ?_
    exact SemilatticeOn.leq_antisymm (leftFormed.targetsAt path) (rightFormed.targetsAt path)
      (Node.stored_leq_of_leqUnder leftCovered path)
      (Node.stored_leq_of_leqUnder rightCovered path)
  · rintro rfl
    exact Bool.and_eq_true_iff.mpr ⟨leq_refl left, leq_refl left⟩

/-! ## Joins of lists -/

/-- The join of all trees of a list. -/
def joinAll (trees : List (PointsToTree heuristics)) : PointsToTree heuristics :=
  trees.foldl join bottom

/-- The tree, unless it is bottom. -/
def nonBottom? (tree : PointsToTree heuristics) : Option (PointsToTree heuristics) :=
  if tree.isBottom then none else some tree

theorem joinAll_concat (trees : List (PointsToTree heuristics)) (tree : PointsToTree heuristics) :
    joinAll (trees ++ [tree]) = (joinAll trees).join tree := by
  rw [joinAll, List.foldl_append]
  rfl

theorem normal_joinAll {trees : List (PointsToTree heuristics)}
    (normal : ∀ tree ∈ trees, tree.Normal) : (joinAll trees).Normal := by
  refine List.foldlRecOn trees _ normal_bottom ?_
  intro joined joinedNormal tree member
  exact joinedNormal.join (normal tree member)

theorem targetsAt_joinAll {trees : List (PointsToTree heuristics)}
    (normal : ∀ tree ∈ trees, tree.Normal) (path : Path) :
    (joinAll trees).targetsAt path =
      trees.foldl (fun set tree => Domain.join set (tree.targetsAt path)) Domain.bottom := by
  induction trees using List.reverseRecOn with
  | nil =>
      exact targetsAt_bottom path
  | append_singleton trees tree inductionHypothesis =>
      obtain ⟨restNormal, lastNormal⟩ := List.forall_mem_append.mp normal
      rw [joinAll_concat, targetsAt_join (normal_joinAll restNormal)
        (lastNormal tree (List.mem_singleton_self tree)), inductionHypothesis restNormal,
        List.foldl_append]
      rfl

theorem joinAll_perm {trees reordered : List (PointsToTree heuristics)}
    (isReordered : trees.Perm reordered) (normal : ∀ tree ∈ trees, tree.Normal) :
    joinAll trees = joinAll reordered := by
  have reorderedNormal : ∀ tree ∈ reordered, tree.Normal := fun tree member =>
    normal tree (isReordered.mem_iff.mpr member)
  refine (normal_joinAll normal).ext_targetsAt (normal_joinAll reorderedNormal) fun path => ?_
  rw [targetsAt_joinAll normal, targetsAt_joinAll reorderedNormal]
  refine isReordered.foldl_eq' ?_ _
  intro first _ second _ set
  rw [CumulativeDomain.join_assoc, CumulativeDomain.join_assoc,
    CumulativeDomain.join_comm (first.targetsAt path)]

/-- Bottom is the only tree that is left out, so nothing is lost. -/
theorem getD_nonBottom? (tree : PointsToTree heuristics) : tree.nonBottom?.getD bottom = tree := by
  unfold nonBottom?
  split
  · rename_i isNothing
    obtain ⟨⟨⟨⟨targets⟩, children⟩, ordered⟩⟩ := tree
    obtain ⟨noTargets, noChildren⟩ := Bool.and_eq_true_iff.mp isNothing
    obtain rfl := Partition.isEmpty_iff.mp noTargets
    obtain rfl := List.isEmpty_iff.mp noChildren
    rfl
  · rfl

end PointsToTree

namespace AliasMap

/-- The trees that a list has for a root. -/
def treesFor (root : RootId) (trees : List (RootId × PointsToTree heuristics)) :
    List (PointsToTree heuristics) :=
  (trees.filter fun entry => entry.1 = root).map Prod.snd

theorem get?_insert (aliases : AliasMap heuristics) (root other : RootId)
    (tree : PointsToTree heuristics) :
    (aliases.insert root tree).get? other =
      if other = root then (((aliases.get? root).getD .bottom).join tree).nonBottom?
      else aliases.get? other := by
  unfold insert PointsToTree.nonBottom?
  generalize ((aliases.get? root).getD .bottom).join tree = joined
  cases isNothing : joined.isBottom with
  | true =>
      simp only [isNothing, if_true]
      exact Entries.lookup_erase root other aliases.trees.entries
  | false =>
      simp only [isNothing, Bool.false_eq_true, if_false]
      exact Entries.lookup_insert root other joined aliases.trees.entries

theorem ofList_concat (trees : List (RootId × PointsToTree heuristics))
    (entry : RootId × PointsToTree heuristics) :
    ofList (trees ++ [entry]) = (ofList trees).insert entry.1 entry.2 := by
  rw [ofList, List.foldl_append]
  rfl

/-- The aliases of a root are the join of all trees that were recorded for it. -/
theorem get?_ofList (trees : List (RootId × PointsToTree heuristics)) (root : RootId) :
    (ofList trees).get? root = (PointsToTree.joinAll (treesFor root trees)).nonBottom? := by
  induction trees using List.reverseRecOn with
  | nil =>
      rfl
  | append_singleton trees entry inductionHypothesis =>
      rw [ofList_concat, get?_insert, treesFor, List.filter_append, List.map_append]
      split
      · rename_i same
        subst same
        rw [inductionHypothesis, PointsToTree.getD_nonBottom?, ← PointsToTree.joinAll_concat]
        simp [treesFor]
      · rename_i different
        rw [inductionHypothesis]
        simp [treesFor, Ne.symm different]

theorem normal_treesFor {trees : List (RootId × PointsToTree heuristics)}
    (normal : ∀ entry ∈ trees, entry.2.Normal) (root : RootId) :
    ∀ tree ∈ treesFor root trees, tree.Normal := by
  intro tree member
  obtain ⟨entry, listed, rfl⟩ := List.mem_map.mp member
  exact normal entry (List.mem_filter.mp listed).1

theorem treesFor_perm {trees reordered : List (RootId × PointsToTree heuristics)}
    (isReordered : trees.Perm reordered) (root : RootId) :
    (treesFor root trees).Perm (treesFor root reordered) :=
  (isReordered.filter _).map _

/-- Points-to trees that are equal in the order are the same, and joins of them do not depend on the
order in which they are taken.  So the aliases that are recorded for a root are the join of all
trees listed for it, and the order of the list has no influence on the map. -/
theorem recorded_in_any_order (heuristics : Heuristics) :
    (∀ left right : PointsToTree heuristics, left.Normal → right.Normal →
      left.WellFormed → right.WellFormed →
      (left.equals right ↔ left = right) ∧ left.join right = right.join left ∧
        left.join left = left) ∧
    (∀ first second third : PointsToTree heuristics,
      first.Normal → second.Normal → third.Normal →
      (first.join second).join third = first.join (second.join third)) ∧
    (∀ trees reordered : List (RootId × PointsToTree heuristics), reordered.Perm trees →
      (∀ entry ∈ trees, entry.2.Normal) →
      ofList reordered = ofList trees ∧
      ∀ root, (ofList reordered).get? root =
        (PointsToTree.joinAll (treesFor root trees)).nonBottom?) := by
  refine ⟨?trees, ?chains, ?lists⟩
  case trees =>
    intro left right leftNormal rightNormal leftFormed rightFormed
    exact ⟨PointsToTree.equals_iff_eq leftNormal rightNormal leftFormed rightFormed,
      PointsToTree.join_comm leftNormal rightNormal,
      PointsToTree.join_self leftNormal leftFormed⟩
  case chains =>
    intro first second third
    exact PointsToTree.join_assoc
  case lists =>
    intro trees reordered isReordered normal
    have sameEntry (root : RootId) : (ofList reordered).get? root =
        (PointsToTree.joinAll (treesFor root trees)).nonBottom? := by
      rw [get?_ofList, PointsToTree.joinAll_perm (treesFor_perm isReordered.symm root)]
      exact normal_treesFor normal root
    refine ⟨congrArg mk (SortedMap.ext_get? fun root => ?_), sameEntry⟩
    exact (sameEntry root).trans (get?_ofList trees root).symm

/-- Aliases of one root that are recorded in two steps, and a root without aliases in between. -/
def splitRecord : List (RootId × PointsToTree .standard) :=
  [(⟨0⟩, .leaf (.single ⟨⟨1⟩, []⟩ .empty)), (⟨3⟩, .bottom),
    (⟨0⟩, .leaf (.single ⟨⟨2⟩, [.anyIndex]⟩ .alwaysCollapse))]

theorem recorded_in_any_order_split :
    (∀ entry ∈ splitRecord, entry.2.Normal) ∧
    ofList splitRecord.reverse = ofList splitRecord ∧
    (ofList splitRecord.reverse).get? ⟨0⟩ =
      some (.leaf (.ofEdges [(⟨⟨1⟩, []⟩, .empty), (⟨⟨2⟩, [.anyIndex]⟩, .alwaysCollapse)])) ∧
    (ofList splitRecord.reverse).get? ⟨3⟩ = none := by
  have normal : ∀ entry ∈ splitRecord, entry.2.Normal := by
    refine List.forall_mem_cons.mpr ⟨PointsToTree.normal_leaf (of_decide_eq_true (by cbv)), ?_⟩
    refine List.forall_mem_cons.mpr ⟨PointsToTree.normal_bottom, ?_⟩
    exact List.forall_mem_singleton.mpr (PointsToTree.normal_leaf (of_decide_eq_true (by cbv)))
  obtain ⟨sameMap, entries⟩ := (recorded_in_any_order .standard).2.2 splitRecord _
    (List.reverse_perm splitRecord) normal
  exact ⟨normal, sameMap, (entries ⟨0⟩).trans (of_decide_eq_true (by cbv)),
    (entries ⟨3⟩).trans (of_decide_eq_true (by cbv))⟩

end AliasMap

end AliasTaint
