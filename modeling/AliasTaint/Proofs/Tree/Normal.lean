import AliasTaint.Proofs.Tree.View
import AliasTaint.Proofs.Value.CollapseDepth

/-!
# The normal form of trees

A tree is normal if no stored child stores nothing, and no stored value is already covered by what
its ancestors sink into it.  All operations on trees lead from normal trees to normal trees, so every
tree that a run of operations produces is normal, and a normal tree is bottom only if it shows
nothing at any path.

A merge may keep a child as it is, without a look inside.  That is sound because the sides of such a
merge are normal, and a normal tree stays normal where less is inherited.
-/

namespace AliasTaint

open Domain LawfulDomain

variable {V : Type} [Domain V]

namespace Node

/-! ## Normal nodes -/

/-- What the normal form asks of one node, given what its ancestors sink into it. -/
structure LocallyNormal (inherited : V) (node : Node V) : Prop where
  fresh : Domain.isBottom node.value = false → Domain.leq node.value inherited = false
  filled : ∀ label child, node.child? label = some child → child.isBottom = false

/-- Every node stored at or below a node is normal. -/
def NormalUnder (sink : V → V) (inherited : V) (node : Node V) : Prop :=
  ∀ path below, node.descend? path = some below →
    below.LocallyNormal (node.sunkFrom sink inherited path)

theorem normalUnder_iff {sink : V → V} {inherited : V} {node : Node V} :
    node.NormalUnder sink inherited ↔
      node.LocallyNormal inherited ∧
        ∀ label child, node.child? label = some child →
          child.NormalUnder sink (sinkIntoChild sink inherited node.value) := by
  constructor
  · intro normal
    refine ⟨normal [] node rfl, ?_⟩
    intro label child found path below reached
    have stepped : node.descend? (label :: path) = some below := by
      simpa [descend?, found] using reached
    simpa [sunkFrom, childOrBottom_of_child? found] using normal (label :: path) below stepped
  · rintro ⟨here, below⟩ path target reached
    cases path with
    | nil =>
        cases reached
        exact here
    | cons label path =>
        obtain ⟨child, found, rest⟩ := Option.bind_eq_some_iff.mp reached
        rw [sunkFrom, childOrBottom_of_child? found]
        exact below label child found path target rest

theorem NormalUnder.locally
    {sink : V → V} {inherited : V} {node : Node V} (normal : node.NormalUnder sink inherited) :
    node.LocallyNormal inherited :=
  (normalUnder_iff.mp normal).1

theorem NormalUnder.child
    {sink : V → V} {inherited : V} {node child : Node V} {label : PathElement}
    (normal : node.NormalUnder sink inherited) (found : node.child? label = some child) :
    child.NormalUnder sink (sinkIntoChild sink inherited node.value) :=
  (normalUnder_iff.mp normal).2 label child found

/-- No child that stores nothing is stored at or below a node. -/
def Pruned (node : Node V) : Prop :=
  ∀ path below, node.descend? path = some below →
    ∀ label child, below.child? label = some child → child.isBottom = false

theorem pruned_iff {node : Node V} :
    node.Pruned ↔ ∀ label child, node.child? label = some child →
      child.isBottom = false ∧ child.Pruned := by
  constructor
  · intro pruned label child found
    refine ⟨pruned [] node rfl label child found, ?_⟩
    intro path below reached
    exact pruned (label :: path) below (by simpa [descend?, found] using reached)
  · intro inside path below reached
    cases path with
    | nil =>
        cases reached
        exact fun label child found => (inside label child found).1
    | cons label path =>
        obtain ⟨child, found, rest⟩ := Option.bind_eq_some_iff.mp reached
        exact (inside label child found).2 path below rest

theorem Pruned.child?_eq_none {node : Node V} (pruned : node.Pruned) {label : PathElement}
    (empty : (node.childOrBottom label).isBottom) : node.child? label = none := by
  cases found : node.child? label with
  | none =>
      rfl
  | some child =>
      rw [childOrBottom_of_child? found, (pruned_iff.mp pruned label child found).1] at empty
      exact nomatch empty

theorem NormalUnder.pruned
    {sink : V → V} {inherited : V} {node : Node V} (normal : node.NormalUnder sink inherited) :
    node.Pruned :=
  fun path below reached => (normal path below reached).filled

/-- Below a pruned node that is not bottom, some stored value is not bottom. -/
theorem Pruned.exists_stored_filled
    {node : Node V} (pruned : node.Pruned) (filled : node.isBottom = false) :
    ∃ path, Domain.isBottom (node.stored path) = false := by
  induction node using Node.induction with
  | step value children inductionHypothesis =>
      cases valueBottom : Domain.isBottom value with
      | false =>
          exact ⟨[], valueBottom⟩
      | true =>
          cases children with
          | nil =>
              simp [isBottom, Node.value, Node.children, valueBottom] at filled
          | cons entry rest =>
              obtain ⟨label, child⟩ := entry
              have found : (mk value ((label, child) :: rest)).child? label = some child := by
                simp [child?, Node.children]
              obtain ⟨childFilled, childPruned⟩ := pruned_iff.mp pruned label child found
              obtain ⟨path, storedFilled⟩ :=
                inductionHypothesis (label, child) List.mem_cons_self childPruned childFilled
              refine ⟨label :: path, ?_⟩
              rw [stored, childOrBottom_of_child? found]
              exact storedFilled

variable [LawfulDomain V] {sink : V → V}

theorem leq_bottom_eq_false {value : V} (filled : Domain.isBottom value = false) :
    Domain.leq value Domain.bottom = false := by
  rw [Bool.eq_false_iff] at filled ⊢
  exact fun covered => filled (isBottom_iff.mpr covered)

theorem normalUnder_leaf (value : V) : (leaf value).NormalUnder sink Domain.bottom := by
  refine normalUnder_iff.mpr ⟨⟨leq_bottom_eq_false, nofun⟩, nofun⟩

omit [LawfulDomain V] in
/-- A node that stores nothing is normal wherever it stands. -/
theorem normalUnder_bottom (nothing : Domain.isBottom (Domain.bottom : V)) (inherited : V) :
    (bottom : Node V).NormalUnder sink inherited := by
  refine normalUnder_iff.mpr ⟨⟨?_, nofun⟩, nofun⟩
  intro filled
  exact nomatch nothing.symm.trans filled

theorem NormalUnder.childOrBottom
    {inherited : V} {node : Node V} (normal : node.NormalUnder sink inherited)
    (label : PathElement) :
    (node.childOrBottom label).NormalUnder sink (sinkIntoChild sink inherited node.value) := by
  cases found : node.child? label with
  | none =>
      rw [Node.childOrBottom, found]
      exact normalUnder_bottom LawfulDomain.isBottom_bottom _
  | some child =>
      rw [childOrBottom_of_child? found]
      exact normal.child found

theorem sunkFrom_mono
    (monotone : MonotoneMap sink)
    {lower inherited : V} (less : Domain.leq lower inherited) (node : Node V) (path : Path) :
    Domain.leq (node.sunkFrom sink lower path) (node.sunkFrom sink inherited path) := by
  induction path generalizing lower inherited node with
  | nil =>
      exact less
  | cons label path inductionHypothesis =>
      exact inductionHypothesis (sinkIntoChild_leq monotone (join_mono less (leq_refl _))) _

/-- A normal node stays normal where less is inherited. -/
theorem NormalUnder.anti
    (monotone : MonotoneMap sink)
    {lower inherited : V} (less : Domain.leq lower inherited)
    {node : Node V} (normal : node.NormalUnder sink inherited) :
    node.NormalUnder sink lower := by
  intro path below reached
  have here := normal path below reached
  refine ⟨?_, here.filled⟩
  intro filled
  have notCovered := here.fresh filled
  rw [Bool.eq_false_iff] at notCovered ⊢
  exact fun covered => notCovered (leq_trans covered (sunkFrom_mono monotone less node path))

theorem NormalUnder.alone
    (monotone : MonotoneMap sink)
    {inherited : V} {node : Node V} (normal : node.NormalUnder sink inherited) :
    node.NormalUnder sink Domain.bottom :=
  normal.anti monotone (bottom_leq inherited)

/-! ## Merges -/

private theorem normalUnder_kept
    (monotone : MonotoneMap sink)
    {node : Node V} (normal : node.NormalUnder sink Domain.bottom)
    {label : PathElement} (bound : (node.child? label).isSome)
    {inherited : V} (nothingInherited : Domain.isBottom inherited) :
    (node.childOrBottom label).isBottom = false ∧
      (node.childOrBottom label).NormalUnder sink inherited := by
  obtain ⟨child, found⟩ := Option.isSome_iff_exists.mp bound
  rw [childOrBottom_of_child? found]
  exact ⟨normal.locally.filled label child found,
    (normal.child found).anti monotone (leq_of_isBottom nothingInherited _)⟩

/-- A child of a merge is normal, or it is merged itself. -/
theorem child_of_merge
    (monotone : MonotoneMap sink)
    {op : MergeOp} {inherited : Inherited V} {left right child : Node V}
    (leftOrdered : left.Ordered) (rightOrdered : right.Ordered)
    (sides : op.trustsSides →
      left.NormalUnder sink Domain.bottom ∧ right.NormalUnder sink Domain.bottom)
    {label : PathElement}
    (found : (merge sink op inherited left right).child? label = some child) :
    child.isBottom = false ∧
      (child.NormalUnder sink (op.inherit sink inherited left.value right.value).result ∨
        child = merge sink op (op.inherit sink inherited left.value right.value)
          (left.childOrBottom label) (right.childOrBottom label)) := by
  rw [child?_merge sink op inherited leftOrdered rightOrdered label] at found
  split at found
  · rename_i bound
    have outcome := mergedChild_mergedChild? sink op
      (op.inherit sink inherited left.value right.value)
      (left.childOrBottom label) (right.childOrBottom label)
    rw [found] at outcome
    cases outcome with
    | keptLeft trusted nothingInherited rightEmpty =>
        obtain ⟨leftNormal, rightNormal⟩ := sides trusted
        have leftBound : (left.child? label).isSome := by
          simpa [rightNormal.pruned.child?_eq_none rightEmpty] using bound
        have kept := normalUnder_kept monotone leftNormal leftBound nothingInherited
        exact ⟨kept.1, Or.inl kept.2⟩
    | keptRight trusted nothingInherited leftEmpty =>
        obtain ⟨leftNormal, rightNormal⟩ := sides trusted
        have rightBound : (right.child? label).isSome := by
          simpa [leftNormal.pruned.child?_eq_none leftEmpty] using bound
        have kept := normalUnder_kept monotone rightNormal rightBound nothingInherited
        exact ⟨kept.1, Or.inl kept.2⟩
    | merged filled =>
        exact ⟨filled, Or.inr rfl⟩
  · exact nomatch found

omit [LawfulDomain V] in
theorem leq_store_eq_false (nothing : Domain.isBottom (Domain.bottom : V))
    {op : MergeOp} {inherited : Inherited V} {left right : V}
    (filled : Domain.isBottom (op.store inherited left right) = false) :
    Domain.leq (op.store inherited left right) inherited.result = false := by
  simp only [MergeOp.store] at filled ⊢
  split at filled
  · rw [nothing] at filled
    exact nomatch filled
  · rename_i notCovered
    simp only [notCovered, Bool.false_eq_true, if_false]
    simpa [filled] using notCovered

/-- A merge is normal if it trusts normal sides only. -/
theorem normalUnder_merge
    (monotone : MonotoneMap sink)
    (op : MergeOp) (inherited : Inherited V) {left right : Node V}
    (leftOrdered : left.Ordered) (rightOrdered : right.Ordered)
    (sides : op.trustsSides →
      left.NormalUnder sink Domain.bottom ∧ right.NormalUnder sink Domain.bottom) :
    (merge sink op inherited left right).NormalUnder sink inherited.result := by
  intro path
  induction path generalizing inherited left right with
  | nil =>
      intro below reached
      cases reached
      constructor
      · rw [value_merge]
        exact leq_store_eq_false LawfulDomain.isBottom_bottom
      · intro label child found
        exact (child_of_merge monotone leftOrdered rightOrdered sides found).1
  | cons label path inductionHypothesis =>
      intro below reached
      obtain ⟨child, found, rest⟩ := Option.bind_eq_some_iff.mp reached
      rw [sunkFrom, childOrBottom_of_child? found, ← result_inherit]
      rcases (child_of_merge monotone leftOrdered rightOrdered sides found).2 with
        childNormal | isMerged
      · exact childNormal path below rest
      · subst isMerged
        refine inductionHypothesis _ (leftOrdered.childOrBottom label)
          (rightOrdered.childOrBottom label) ?_ below rest
        intro trusted
        exact ⟨((sides trusted).1.childOrBottom label).alone monotone,
          ((sides trusted).2.childOrBottom label).alone monotone⟩

theorem normalUnder_normalize
    (monotone : MonotoneMap sink) {node : Node V} (ordered : node.Ordered) :
    (node.normalize sink).NormalUnder sink Domain.bottom :=
  normalUnder_merge monotone .normalize .nothing ordered ordered_bottom nofun

/-! ## Reads and writes -/

omit [LawfulDomain V] in
theorem NormalUnder.descend
    {inherited : V} {node below : Node V} (normal : node.NormalUnder sink inherited)
    {path : Path} (reached : node.descend? path = some below) :
    below.NormalUnder sink (node.sunkFrom sink inherited path) := by
  induction path generalizing inherited node with
  | nil =>
      cases reached
      exact normal
  | cons label path inductionHypothesis =>
      obtain ⟨child, found, rest⟩ := Option.bind_eq_some_iff.mp reached
      rw [sunkFrom, childOrBottom_of_child? found]
      exact inductionHypothesis (normal.child found) rest

theorem NormalUnder.rawRead
    (monotone : MonotoneMap sink)
    {inherited : V} {node : Node V} (normal : node.NormalUnder sink inherited) (path : Path) :
    (node.rawRead path).NormalUnder sink Domain.bottom := by
  unfold Node.rawRead
  cases reached : node.descend? path with
  | none =>
      exact normalUnder_leaf _
  | some below =>
      exact (normal.descend reached).alone monotone

theorem NormalUnder.readUnder
    (monotone : MonotoneMap sink)
    {inherited : V} {node : Node V} (ordered : node.Ordered)
    (normal : node.NormalUnder sink inherited) (path : Path) :
    (node.readUnder sink inherited path).NormalUnder sink Domain.bottom := by
  induction path generalizing inherited node with
  | nil =>
      simp only [Node.readUnder]
      split
      · exact normal.alone monotone
      · exact normalUnder_normalize monotone (.mk ordered.increasing ordered.children)
  | cons label path inductionHypothesis =>
      simp only [Node.readUnder]
      split
      · exact normalUnder_leaf _
      · rename_i child found
        exact inductionHypothesis (ordered.child? found) (normal.child found)

omit [LawfulDomain V] in
theorem NormalUnder.withChild
    {inherited : V} {node child : Node V} (normal : node.NormalUnder sink inherited)
    (label : PathElement)
    (childNormal : child.NormalUnder sink (sinkIntoChild sink inherited node.value)) :
    (node.withChild label child).NormalUnder sink inherited := by
  refine normalUnder_iff.mpr ⟨⟨?_, ?_⟩, ?_⟩
  · rw [value_withChild]
    exact normal.locally.fresh
  · intro other found isFound
    rw [child?_withChild] at isFound
    split at isFound
    · obtain ⟨rfl, filled⟩ := nonBottom?_eq_some_iff.mp isFound
      exact filled
    · exact normal.locally.filled other found isFound
  · intro other found isFound
    rw [value_withChild]
    rw [child?_withChild] at isFound
    split at isFound
    · obtain ⟨rfl, _⟩ := nonBottom?_eq_some_iff.mp isFound
      exact childNormal
    · exact normal.child isFound

theorem NormalUnder.graftUnder
    (monotone : MonotoneMap sink)
    {tree : Node V} (treeOrdered : tree.Ordered)
    (treeNormal : tree.NormalUnder sink Domain.bottom)
    {inherited : V} {node : Node V} (ordered : node.Ordered)
    (normal : node.NormalUnder sink inherited) (kind : UpdateKind) (path : Path) :
    (Node.graftUnder sink kind tree inherited path node).NormalUnder sink inherited := by
  induction path generalizing inherited node with
  | nil =>
      simp only [Node.graftUnder]
      cases kind with
      | strong =>
          exact normalUnder_merge monotone .join (.inResult inherited) ordered_bottom treeOrdered
            fun _ => ⟨normalUnder_leaf _, treeNormal⟩
      | weak =>
          exact normalUnder_merge monotone .join (.inResult inherited) ordered treeOrdered
            fun _ => ⟨normal.alone monotone, treeNormal⟩
  | cons label path inductionHypothesis =>
      exact normal.withChild label
        (inductionHypothesis (ordered.childOrBottom label) (normal.childOrBottom label))

/-! ## Trees that show nothing -/

omit [LawfulDomain V] in
theorem NormalUnder.exists_stored_filled
    {inherited : V} {node : Node V} (normal : node.NormalUnder sink inherited)
    (filled : node.isBottom = false) :
    ∃ path, Domain.isBottom (node.stored path) = false :=
  normal.pruned.exists_stored_filled filled

end Node

namespace Tree

/-- No value is stored that the ancestors show already, and no child that stores nothing. -/
def Normal (sink : V → V) (tree : Tree V) : Prop :=
  tree.node.NormalUnder sink Domain.bottom

theorem Normal.isBottom_iff_view [LawfulDomain V]
    {sink : V → V} {tree : Tree V} (normal : tree.Normal sink) :
    tree.isBottom ↔ ∀ path, Domain.isBottom (tree.view sink path) := by
  constructor
  · intro isNothing path
    exact Node.isBottom_showFrom isNothing (Node.isBottom_value isNothing) path
  · intro showsNothing
    cases filled : tree.isBottom with
    | true =>
        rfl
    | false =>
        obtain ⟨path, storedFilled⟩ := Node.NormalUnder.exists_stored_filled normal filled
        have storedNothing :=
          isBottom_of_leq (Node.stored_leq_view tree.node path) (showsNothing path)
        rw [storedNothing] at storedFilled
        exact nomatch storedFilled

/-! ## Runs of operations -/

/-- The operations that make a tree or change the tree at hand. -/
inductive Operation (ε V : Type) where
  | new (value : V)
  | ofEdges (edges : List (Path × V))
  | write (path : Path) (value : V) (kind : UpdateKind)
  | writeTree (path : Path) (grafted : Tree V) (kind : UpdateKind)
  | updateRoot (change : V → V)
  | transform (change : V → V)
  | flatten (mark : V → V)
  | collapseDeeperThan (height : Nat) (hook : Hook ε V)
  | join (other : Tree V)
  | widen (other : Tree V)
  | meet (other : Tree V)
  | narrow (other : Tree V)
  | read (path : Path)
  | rawRead (path : Path)

variable {ε : Type}

/-- The tree after one operation; a hook of the policy may refuse to be called. -/
def Operation.apply (policy : Policy ε V) (tree : Tree V) : Operation ε V → Except ε (Tree V)
  | .new value => .ok (leaf value)
  | .ofEdges edges => .ok (Tree.ofEdges policy.sink edges)
  | .write path value kind => .ok (tree.write policy.sink path value kind)
  | .writeTree path grafted kind => .ok (tree.writeTree policy.sink path grafted kind)
  | .updateRoot change => .ok (tree.updateRoot policy.sink change)
  | .transform change => .ok (tree.transform policy.sink change)
  | .flatten mark => .ok (tree.flatten mark)
  | .collapseDeeperThan height hook => tree.collapseWith policy.sink height hook
  | .join other => .ok (tree.join policy.sink other)
  | .widen other => tree.widen policy other
  | .meet other => .ok (tree.meet policy.sink other)
  | .narrow other => .ok (tree.narrow policy.sink other)
  | .read path => .ok (tree.read policy.sink path)
  | .rawRead path => .ok (tree.rawRead path)

/-- The tree after operations one after the other. -/
def run (policy : Policy ε V) : Tree V → List (Operation ε V) → Except ε (Tree V)
  | tree, [] => .ok tree
  | tree, operation :: rest =>
      match operation.apply policy tree with
      | .ok next => run policy next rest
      | .error reason => .error reason

/-- A second tree that an operation takes is normal. -/
def Operation.OperandNormal (sink : V → V) : Operation ε V → Prop
  | .writeTree _ grafted _ => grafted.Normal sink
  | .join other => other.Normal sink
  | .widen other => other.Normal sink
  | .meet other => other.Normal sink
  | .narrow other => other.Normal sink
  | _ => True

variable [LawfulDomain V] {sink : V → V}

theorem normal_leaf (value : V) : (leaf value).Normal sink :=
  Node.normalUnder_leaf value

theorem normal_normalize (monotone : MonotoneMap sink) (tree : Tree V) :
    (tree.normalize sink).Normal sink :=
  Node.normalUnder_normalize monotone tree.ordered

theorem Normal.merge
    (monotone : MonotoneMap sink) (op : MergeOp)
    {left right : Tree V} (leftNormal : left.Normal sink) (rightNormal : right.Normal sink) :
    (left.merge sink op right).Normal sink :=
  Node.normalUnder_merge monotone op .nothing left.ordered right.ordered
    fun _ => ⟨leftNormal, rightNormal⟩

theorem Normal.writeTree
    (monotone : MonotoneMap sink)
    {tree grafted : Tree V} (normal : tree.Normal sink) (graftedNormal : grafted.Normal sink)
    (path : Path) (kind : UpdateKind) :
    (tree.writeTree sink path grafted kind).Normal sink :=
  Node.NormalUnder.graftUnder monotone grafted.ordered graftedNormal tree.ordered normal kind path

theorem normal_ofEdges (monotone : MonotoneMap sink) (edges : List (Path × V)) :
    (ofEdges sink edges).Normal sink := by
  have extended (start : Tree V) (startNormal : start.Normal sink) :
      (edges.foldl (fun tree edge => tree.write sink edge.1 edge.2 .weak) start).Normal sink := by
    induction edges generalizing start with
    | nil =>
        exact startNormal
    | cons edge rest inductionHypothesis =>
        exact inductionHypothesis _
          (startNormal.writeTree monotone (normal_leaf edge.2) edge.1 .weak)
  exact extended bottom (normal_leaf Domain.bottom)

theorem normal_updateRoot
    (monotone : MonotoneMap sink) (tree : Tree V) (change : V → V) :
    (tree.updateRoot sink change).Normal sink := by
  obtain ⟨⟨value, children⟩, ordered⟩ := tree
  cases children with
  | nil =>
      exact normal_leaf (change value)
  | cons entry rest =>
      exact normal_normalize monotone _

theorem normal_collapseWith
    (monotone : MonotoneMap sink) {tree result : Tree V} {height : Nat} {hook : Hook ε V}
    (produced : tree.collapseWith sink height hook = .ok result) :
    result.Normal sink := by
  unfold collapseWith at produced
  split at produced
  · cases produced
    exact normal_normalize monotone ⟨_, Node.Ordered.flattenAt _ _ _ tree.ordered⟩
  · split at produced
    · exact nomatch produced
    · cases produced
      exact normal_normalize monotone ⟨_, Node.Ordered.flattenAt _ _ _ tree.ordered⟩

theorem Normal.widen
    {policy : Policy ε V} (monotone : MonotoneMap policy.sink)
    {left right result : Tree V}
    (leftNormal : left.Normal policy.sink) (rightNormal : right.Normal policy.sink)
    (produced : left.widen policy right = .ok result) :
    result.Normal policy.sink := by
  have merged := leftNormal.merge monotone .widen rightNormal
  simp only [Tree.widen] at produced
  split at produced
  · cases produced
    exact merged
  · split at produced
    · exact normal_collapseWith monotone produced
    · cases produced
      exact merged

/-- One operation leads from a normal tree to a normal tree. -/
theorem Normal.apply
    {policy : Policy ε V} (monotone : MonotoneMap policy.sink)
    {tree result : Tree V} (normal : tree.Normal policy.sink)
    {operation : Operation ε V} (operandNormal : operation.OperandNormal policy.sink)
    (produced : operation.apply policy tree = .ok result) :
    result.Normal policy.sink := by
  cases operation with
  | new value =>
      cases produced
      exact normal_leaf value
  | ofEdges edges =>
      cases produced
      exact normal_ofEdges monotone edges
  | write path value kind =>
      cases produced
      exact normal.writeTree monotone (normal_leaf value) path kind
  | writeTree path grafted kind =>
      cases produced
      exact normal.writeTree monotone operandNormal path kind
  | updateRoot change =>
      cases produced
      exact normal_updateRoot monotone tree change
  | transform change =>
      cases produced
      exact normal_normalize monotone _
  | flatten mark =>
      cases produced
      exact normal_leaf _
  | collapseDeeperThan height hook =>
      exact normal_collapseWith monotone produced
  | join other =>
      cases produced
      exact normal.merge monotone .join operandNormal
  | widen other =>
      exact normal.widen monotone operandNormal produced
  | meet other =>
      cases produced
      exact normal.merge monotone .meet operandNormal
  | narrow other =>
      cases produced
      exact normal.merge monotone .narrow operandNormal
  | read path =>
      cases produced
      exact Node.NormalUnder.readUnder monotone tree.ordered normal path
  | rawRead path =>
      cases produced
      exact Node.NormalUnder.rawRead monotone normal path

theorem Normal.run
    {policy : Policy ε V} (monotone : MonotoneMap policy.sink)
    {start result : Tree V} (startNormal : start.Normal policy.sink)
    {operations : List (Operation ε V)}
    (operandsNormal : ∀ operation ∈ operations, operation.OperandNormal policy.sink)
    (produced : run policy start operations = .ok result) :
    result.Normal policy.sink := by
  induction operations generalizing start with
  | nil =>
      cases produced
      exact startNormal
  | cons operation rest inductionHypothesis =>
      simp only [Tree.run] at produced
      split at produced
      · rename_i next applied
        have nextNormal :=
          startNormal.apply monotone (operandsNormal operation List.mem_cons_self) applied
        exact inductionHypothesis nextNormal
          (fun later member => operandsNormal later (List.mem_cons_of_mem _ member)) produced
      · exact nomatch produced

/-- Every tree that a run of operations produces is normal, and it is bottom if and only if it shows
nothing at any path. -/
theorem run_normal
    (policy : Policy ε V) (monotone : MonotoneMap policy.sink)
    (operations : List (Operation ε V))
    (operandsNormal : ∀ operation ∈ operations, operation.OperandNormal policy.sink)
    (start : Tree V) (startNormal : start.Normal policy.sink)
    (result : Tree V) (produced : run policy start operations = .ok result) :
    result.Normal policy.sink ∧
      (result.isBottom ↔ ∀ path, Domain.isBottom (result.view policy.sink path)) := by
  have resultNormal := startNormal.run monotone operandsNormal produced
  exact ⟨resultNormal, resultNormal.isBottom_iff_view⟩

/-- Collapse depths that sink unchanged into trees of height one at most. -/
def shallowDepths : Policy Empty CollapseDepth where
  maxHeight := some 1
  onWidening := .ok id
  sink := id
  onHoist := .ok id

/-- Operations that keep a child unvisited, widen beyond the bound of the height, and drop values
that the root covers. -/
def shallowOperations : List (Operation Empty CollapseDepth) :=
  [.new .bottom,
    .writeTree [.anyIndex] (leaf (.level 3)) .weak,
    .join (leaf .bottom),
    .widen (ofEdges id [([.anyIndex, .anyIndex], .level 1)]),
    .updateRoot fun _ => .level 1,
    .meet (leaf (.level 2))]

theorem run_normal_shallowDepths :
    (∀ operation ∈ shallowOperations, operation.OperandNormal shallowDepths.sink) ∧
    ∃ result,
      run shallowDepths bottom shallowOperations = .ok result ∧
      result.Normal shallowDepths.sink ∧
      (result.isBottom ↔ ∀ path, Domain.isBottom (result.view shallowDepths.sink path)) := by
  have monotone : MonotoneMap shallowDepths.sink := fun covered => covered
  have operandsNormal : ∀ operation ∈ shallowOperations,
      operation.OperandNormal shallowDepths.sink := by
    intro operation member
    simp only [shallowOperations, List.mem_cons, List.not_mem_nil, or_false] at member
    rcases member with rfl | rfl | rfl | rfl | rfl | rfl
    · trivial
    · exact normal_leaf _
    · exact normal_leaf _
    · exact normal_ofEdges monotone _
    · trivial
    · exact normal_leaf _
  cases produced : run shallowDepths bottom shallowOperations with
  | error impossible =>
      exact nomatch impossible
  | ok result =>
      exact ⟨operandsNormal, result, rfl,
        run_normal shallowDepths monotone shallowOperations operandsNormal
          bottom (normal_leaf _) result produced⟩

end Tree

end AliasTaint
