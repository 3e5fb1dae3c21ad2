import AliasTaint.Proofs.Tree.Bounds
import AliasTaint.Proofs.Tree.Fresh
import AliasTaint.Proofs.Tree.Observed

/-!
# Reads one after the other

The order on trees compares what is stored on one side with what is observed on the other: the value
stored at a path joined with those stored above it, each sunk once for every level in between.  It
goes on to sink below the last stored node.  A read does not: it stops at the first node of its path
that is missing, and gives what is sunk down to there.

So a read along a stored path gives all that is observed at and below it, and a further read can go
on from there.  A read beyond the stored nodes gives what is observed at the first missing node, and
lacks one sinking for every level that is left.  This makes no difference for all trees exactly if
to sink a value twice is to sink it once.
-/

namespace AliasTaint

open Domain LawfulDomain

variable {V : Type}

namespace Node

/-! ## Descents -/

theorem descend?_append {path : Path} {node below : Node V}
    (reached : node.descend? path = some below) (rest : Path) :
    node.descend? (path ++ rest) = below.descend? rest := by
  induction path generalizing node with
  | nil =>
      cases reached
      rfl
  | cons label path inductionHypothesis =>
      obtain ⟨child, found, further⟩ := Option.bind_eq_some_iff.mp reached
      rw [List.cons_append, descend?, found]
      exact inductionHypothesis further

theorem longestPath_eq_iff {path : Path} {node : Node V} :
    node.longestPath path = path ↔ (node.descend? path).isSome := by
  induction path generalizing node with
  | nil =>
      exact iff_of_true rfl rfl
  | cons label path inductionHypothesis =>
      rw [longestPath, descend?]
      cases found : node.child? label with
      | none =>
          exact iff_of_false (List.cons_ne_nil label path).symm Bool.false_ne_true
      | some child =>
          simpa using inductionHypothesis

theorem longestPath_of_descend? {path : Path} {node below : Node V}
    (reached : node.descend? path = some below) : node.longestPath path = path :=
  longestPath_eq_iff.mpr (Option.isSome_iff_exists.mpr ⟨below, reached⟩)

theorem longestPath_append {path : Path} {node below : Node V}
    (reached : node.descend? path = some below) (rest : Path) :
    node.longestPath (path ++ rest) = path ++ below.longestPath rest := by
  induction path generalizing node with
  | nil =>
      cases reached
      rfl
  | cons label path inductionHypothesis =>
      obtain ⟨child, found, further⟩ := Option.bind_eq_some_iff.mp reached
      rw [List.cons_append, longestPath, found]
      exact congrArg (label :: ·) (inductionHypothesis further)

/-- One step beyond the longest stored beginning of a path, no node is stored. -/
theorem descend?_take_longestPath {path : Path} {node : Node V}
    (missing : node.descend? path = none) :
    node.descend? (path.take ((node.longestPath path).length + 1)) = none := by
  induction path generalizing node with
  | nil =>
      exact nomatch missing
  | cons label path inductionHypothesis =>
      rw [descend?] at missing
      rw [longestPath]
      cases found : node.child? label with
      | none =>
          simp [descend?, found]
      | some child =>
          rw [found] at missing
          rw [List.length_cons, List.take_succ_cons, descend?, found]
          exact inductionHypothesis missing

theorem longestPath_congr {node other : Node V}
    (sameNodes : ∀ path, (node.descend? path).isSome ↔ (other.descend? path).isSome)
    (path : Path) : node.longestPath path = other.longestPath path := by
  induction path generalizing node other with
  | nil =>
      rfl
  | cons label path inductionHypothesis =>
      have sameLabel := sameNodes [label]
      rw [longestPath, longestPath]
      cases found : node.child? label with
      | none =>
          cases otherFound : other.child? label with
          | none =>
              rfl
          | some otherChild =>
              simp [descend?, found, otherFound] at sameLabel
      | some child =>
          cases otherFound : other.child? label with
          | none =>
              simp [descend?, found, otherFound] at sameLabel
          | some otherChild =>
              refine congrArg (label :: ·) (inductionHypothesis fun below => ?_)
              simpa [descend?, found, otherFound] using sameNodes (label :: below)

end Node

variable [Domain V]

namespace Node

/-! ## Stored nodes -/

/-- A node stands exactly where something is stored at or below. -/
theorem Pruned.isSome_descend?_iff (nothing : Domain.isBottom (Domain.bottom : V))
    {node : Node V} (pruned : node.Pruned) {path : Path} :
    (node.descend? path).isSome ↔
      path = [] ∨ ∃ below, Domain.isBottom (node.stored (path ++ below)) = false := by
  induction path generalizing node with
  | nil =>
      exact iff_of_true rfl (Or.inl rfl)
  | cons label path inductionHypothesis =>
      rw [descend?]
      cases found : node.child? label with
      | none =>
          refine iff_of_false Bool.false_ne_true ?_
          rintro (isNil | ⟨below, filled⟩)
          · cases isNil
          · have bound := isSome_child?_of_stored nothing filled
            rw [found] at bound
            cases bound
      | some child =>
          obtain ⟨childFilled, childPruned⟩ := pruned_iff.mp pruned label child found
          have atChild : (child.descend? path).isSome ↔
              path = [] ∨ ∃ below, Domain.isBottom (child.stored (path ++ below)) = false :=
            inductionHypothesis childPruned
          simp only [Option.bind_some, List.cons_append, stored, childOrBottom_of_child? found,
            reduceCtorEq, false_or]
          rw [atChild, or_iff_right_of_imp]
          rintro rfl
          exact childPruned.exists_stored_filled childFilled

/-! ## Reads -/

theorem readUnder_append {path : Path} {node below : Node V}
    (reached : node.descend? path = some below) (sink : V → V) (inherited : V) (rest : Path) :
    node.readUnder sink inherited (path ++ rest) =
      below.readUnder sink (node.sunkFrom sink inherited path) rest := by
  induction path generalizing node inherited with
  | nil =>
      cases reached
      rfl
  | cons label path inductionHypothesis =>
      obtain ⟨child, found, further⟩ := Option.bind_eq_some_iff.mp reached
      rw [List.cons_append, readUnder, found, sunkFrom, childOrBottom_of_child? found]
      exact inductionHypothesis further _

/-- A read ends at the first missing node of its path, however long the path is. -/
theorem readUnder_append_of_missing {path : Path} {node : Node V}
    (missing : node.descend? path = none) (sink : V → V) (inherited : V) (rest : Path) :
    node.readUnder sink inherited (path ++ rest) =
      leaf (node.sunkFrom sink inherited
        (path.take ((node.longestPath path).length + 1))) := by
  induction path generalizing node inherited with
  | nil =>
      exact nomatch missing
  | cons label path inductionHypothesis =>
      rw [descend?] at missing
      rw [List.cons_append, readUnder, longestPath]
      cases found : node.child? label with
      | none =>
          simp [sunkFrom]
      | some child =>
          rw [found] at missing
          rw [List.length_cons, List.take_succ_cons, sunkFrom, childOrBottom_of_child? found]
          exact inductionHypothesis missing _

theorem sunkFrom_concat
    (sink : V → V) (inherited : V) (path : Path) (label : PathElement) (node : Node V) :
    node.sunkFrom sink inherited (path ++ [label]) =
      sinkIntoChild sink (node.sunkFrom sink inherited path) (node.stored path) := by
  induction path generalizing inherited node with
  | nil =>
      rfl
  | cons first path inductionHypothesis =>
      exact inductionHypothesis _ (node.childOrBottom first)

section Reading

variable [LawfulDomain V] {sink : V → V}

theorem view_normalize_equals
    (monotone : MonotoneMap sink) {node : Node V} (ordered : node.Ordered) (path : Path) :
    equals ((node.normalize sink).view sink path) (node.view sink path) := by
  have storedCovered : ∀ below,
      Domain.leq ((node.normalize sink).stored below) (node.stored below) := by
    intro below
    have stored := stored_merge_leq_join sink (Or.inr rfl) .nothing ordered ordered_bottom below
    exact leq_trans stored
      (join_leq (leq_refl _) (leq_of_isBottom (isBottom_stored isBottom_bottom below) _))
  have upper : MergeOp.normalize.isUpper := rfl
  have bound := Tree.join_view_leq_merge monotone upper ⟨node, ordered⟩ Tree.bottom path
  exact equals_iff.mpr ⟨showFrom_leq_of_stored monotone (storedCovered []) storedCovered path,
    (join_leq_iff.mp bound).1⟩

/-- A read of a node itself shows what the node shows with all that it inherits. -/
theorem view_readUnder_nil_equals
    (monotone : MonotoneMap sink) (inherited : V) {node : Node V} (ordered : node.Ordered)
    (path : Path) :
    equals ((node.readUnder sink inherited []).view sink path)
      (node.showFrom sink (join inherited node.value) path) := by
  rw [readUnder]
  split
  · rename_i nothing
    exact equals_iff.mpr
      ⟨showFrom_mono monotone (leq_join_right _ _) node path,
        showFrom_mono monotone (join_leq (leq_of_isBottom nothing _) (leq_refl _)) node path⟩
  · have raised : Ordered (.mk (join node.value inherited) node.children) :=
      .mk ordered.increasing ordered.children
    have sameChildren :
        (mk (join node.value inherited) node.children).children = node.children :=
      rfl
    refine equals_trans (view_normalize_equals monotone raised path) ?_
    rw [view, showFrom_eq_of_children sameChildren]
    exact equals_iff.mpr
      ⟨showFrom_mono monotone (join_leq (leq_join_right _ _) (leq_join_left _ _)) node path,
        showFrom_mono monotone (join_leq (leq_join_right _ _) (leq_join_left _ _)) node path⟩

/-- A read along a stored path shows what is shown at and below the path. -/
theorem view_read_equals
    (monotone : MonotoneMap sink) {node below : Node V} (ordered : node.Ordered)
    {path : Path} (reached : node.descend? path = some below) (rest : Path) :
    equals ((node.read sink path).view sink rest) (node.view sink (path ++ rest)) := by
  have isRead := readUnder_append reached sink Domain.bottom []
  rw [List.append_nil] at isRead
  have isStored : node.stored path = below.value := by
    rw [stored_eq_descend?, reached]
    rfl
  have shown := equals_iff.mp (view_equals_sunk monotone node path)
  rw [isStored] at shown
  rw [read, isRead, view_append, rawRead, reached, Option.getD_some]
  refine equals_trans (view_readUnder_nil_equals monotone _ (ordered.descend? path reached) rest) ?_
  exact equals_iff.mpr
    ⟨showFrom_mono monotone shown.2 below rest, showFrom_mono monotone shown.1 below rest⟩

/-- A read beyond the stored nodes gives what is shown at the first missing one. -/
theorem read_of_missing
    (monotone : MonotoneMap sink) {node : Node V} {path : Path}
    (missing : node.descend? path = none) :
    ∃ shown, equals shown (node.view sink (path.take ((node.longestPath path).length + 1))) ∧
      node.read sink path = leaf shown ∧ ∀ rest, node.read sink (path ++ rest) = leaf shown := by
  have isRead := readUnder_append_of_missing missing sink Domain.bottom
  have isReadHere := isRead []
  rw [List.append_nil] at isReadHere
  refine ⟨_, ?_, isReadHere, isRead⟩
  have shown := equals_iff.mp (view_equals_sunk monotone node
    (path.take ((node.longestPath path).length + 1)))
  rw [stored_eq_descend?, descend?_take_longestPath missing] at shown
  exact equals_iff.mpr ⟨leq_trans (leq_join_left _ _) shown.2,
    leq_trans shown.1 (join_leq (leq_refl _) (bottom_leq _))⟩

/-! ## Reads of normal trees -/

/-- A normal tree stores something where it shows more than is passed on from one step above. -/
theorem NormalUnder.isBottom_stored_iff_view_leq
    (monotone : MonotoneMap sink) {node : Node V} (normal : node.NormalUnder sink Domain.bottom)
    (path : Path) (label : PathElement) :
    Domain.isBottom (node.stored (path ++ [label])) ↔
      Domain.leq (node.view sink (path ++ [label]))
        (sinkIntoChild sink Domain.bottom (node.view sink path)) := by
  constructor
  · intro nothing
    rw [view_concat]
    exact join_leq (leq_refl _) (leq_of_isBottom nothing _)
  · intro covered
    have shown := equals_iff.mp (view_equals_sunk monotone node path)
    have passedOn : Domain.leq (sinkIntoChild sink Domain.bottom (node.view sink path))
        (node.sunkFrom sink Domain.bottom (path ++ [label])) := by
      rw [sunkFrom_concat]
      exact sinkIntoChild_leq monotone (join_leq (bottom_leq _) shown.1)
    have storedCovered :=
      leq_trans (stored_leq_view node (path ++ [label])) (leq_trans covered passedOn)
    cases filled : Domain.isBottom (node.stored (path ++ [label])) with
    | true =>
        rfl
    | false =>
        have fresh :=
          ((normalUnder_iff_fresh LawfulDomain.isBottom_bottom).mp normal).2 _ filled
        rw [← sunkFrom_eq_sunkAlong, storedCovered] at fresh
        exact nomatch fresh

/-- A normal tree that shows what another shows below a stored path has the same nodes as the other
has below that path. -/
theorem NormalUnder.isSome_descend?_iff_of_view
    (monotone : MonotoneMap sink) {node other : Node V}
    (normal : node.NormalUnder sink Domain.bottom)
    (otherNormal : other.NormalUnder sink Domain.bottom)
    {path : Path} (reached : (node.descend? path).isSome)
    (sameViews : ∀ below, equals (other.view sink below) (node.view sink (path ++ below)))
    (rest : Path) :
    (other.descend? rest).isSome ↔ (node.descend? (path ++ rest)).isSome := by
  have sameStored : ∀ (above : Path) (label : PathElement),
      Domain.isBottom (other.stored (above ++ [label])) =
        Domain.isBottom (node.stored (path ++ (above ++ [label]))) := by
    intro above label
    have here := equals_iff.mp (sameViews (above ++ [label]))
    have oneAbove := equals_iff.mp (sameViews above)
    rw [← List.append_assoc] at here ⊢
    rw [Bool.eq_iff_iff, otherNormal.isBottom_stored_iff_view_leq monotone,
      normal.isBottom_stored_iff_view_leq monotone]
    constructor
    · intro covered
      exact leq_trans here.2 (leq_trans covered (sinkIntoChild_bottom_leq monotone oneAbove.1))
    · intro covered
      exact leq_trans here.1 (leq_trans covered (sinkIntoChild_bottom_leq monotone oneAbove.2))
  cases rest with
  | nil =>
      rw [List.append_nil]
      exact iff_of_true rfl reached
  | cons label rest =>
      rw [otherNormal.pruned.isSome_descend?_iff LawfulDomain.isBottom_bottom,
        normal.pruned.isSome_descend?_iff LawfulDomain.isBottom_bottom]
      refine or_congr (by simp) (exists_congr fun below => ?_)
      obtain ⟨above, last, isConcat⟩ :=
        (List.eq_nil_or_concat (label :: rest ++ below)).resolve_left nofun
      rw [List.append_assoc, isConcat, List.concat_eq_append, sameStored]

theorem view_leaf_equals (monotone : MonotoneMap sink) {value other : V}
    (same : equals value other) (path : Path) :
    equals ((leaf value).view sink path) ((leaf other).view sink path) := by
  have sameChildren : (leaf value).children = (leaf other).children := rfl
  rw [equals_iff] at same ⊢
  rw [view, view, showFrom_eq_of_children sameChildren]
  exact ⟨showFrom_mono monotone same.1 _ path, showFrom_mono monotone same.2 _ path⟩

/-- Behind a stored path, a second read goes on where the first one ended. -/
theorem NormalUnder.view_read_append_equals
    (monotone : MonotoneMap sink) {node : Node V} (ordered : node.Ordered)
    (normal : node.NormalUnder sink Domain.bottom)
    {path : Path} (reached : (node.descend? path).isSome) (rest below : Path) :
    equals ((node.read sink (path ++ rest)).view sink below)
      (((node.read sink path).read sink rest).view sink below) := by
  obtain ⟨found, isFound⟩ := Option.isSome_iff_exists.mp reached
  have sameViews := view_read_equals monotone ordered isFound
  have readOrdered : (node.read sink path).Ordered := ordered.read sink path
  have readNormal : (node.read sink path).NormalUnder sink Domain.bottom :=
    normal.readUnder monotone ordered path
  have sameNodes := isSome_descend?_iff_of_view monotone normal readNormal reached sameViews
  cases stops : (node.read sink path).descend? rest with
  | some target =>
      have reachedAlong := (sameNodes rest).mp (by rw [stops]; rfl)
      obtain ⟨further, isFurther⟩ := Option.isSome_iff_exists.mp reachedAlong
      have direct := view_read_equals monotone ordered isFurther below
      have behind := equals_trans (view_read_equals monotone readOrdered stops below)
        (sameViews (rest ++ below))
      rw [← List.append_assoc] at behind
      exact equals_trans direct (equals_symm behind)
  | none =>
      have missing : node.descend? (path ++ rest) = none := by
        rw [← Option.not_isSome_iff_eq_none, ← sameNodes rest, stops]
        exact nofun
      have sameLongest : found.longestPath rest = (node.read sink path).longestPath rest := by
        refine longestPath_congr (fun label => ?_) rest
        rw [sameNodes, descend?_append isFound]
      obtain ⟨shown, isShown, direct, _⟩ := read_of_missing monotone missing
      obtain ⟨behindShown, isBehindShown, behind, _⟩ := read_of_missing monotone stops
      rw [longestPath_append isFound, List.length_append, Nat.add_assoc,
        List.take_length_add_append, sameLongest] at isShown
      have same := equals_trans isShown
        (equals_symm (equals_trans isBehindShown (sameViews _)))
      rw [direct, behind]
      exact view_leaf_equals monotone same below

end Reading

end Node

namespace Tree

/-- A read along two paths is a read along the first, and along the second of what it gives. -/
def ReadsCompose (sink : V → V) : Prop :=
  ∀ tree : Tree V, tree.Normal sink → ∀ path rest,
    (tree.read sink (path ++ rest)).equals sink ((tree.read sink path).read sink rest)

/-- The root of a read is what is observed at its path. -/
def ReadsObserve (sink : V → V) : Prop :=
  ∀ tree : Tree V, tree.Normal sink → ∀ path,
    Domain.equals (tree.read sink path).root (tree.observed sink path)

variable [LawfulDomain V] {sink : V → V}

theorem read_nil (tree : Tree V) : tree.read sink [] = tree := by
  have nothing : Domain.isBottom (Domain.bottom : V) := LawfulDomain.isBottom_bottom
  exact ext_node (if_pos nothing)

theorem read_of_missing
    (monotone : MonotoneMap sink) {tree : Tree V} {path : Path}
    (missing : tree.node.descend? path = none) :
    ∃ shown,
      Domain.equals shown (tree.view sink (path.take ((tree.longestPath path).length + 1))) ∧
      tree.read sink path = leaf shown ∧ ∀ rest, tree.read sink (path ++ rest) = leaf shown := by
  obtain ⟨shown, isShown, isLeaf, isLeafBeyond⟩ := Node.read_of_missing monotone missing
  exact ⟨shown, isShown, ext_node isLeaf, fun rest => ext_node (isLeafBeyond rest)⟩

/-- What is shown at a path is the root of the read there, sunk once more for every level beyond the
first missing node. -/
theorem view_equals_iterate_root
    (monotone : MonotoneMap sink) (keepsBottom : Domain.isBottom (sink Domain.bottom))
    (tree : Tree V) (path : Path) :
    Domain.equals (tree.view sink path)
      (sink^[path.length - ((tree.longestPath path).length + 1)] (tree.read sink path).root) := by
  cases reached : tree.node.descend? path with
  | some below =>
      have whole : tree.longestPath path = path := Node.longestPath_of_descend? reached
      have shown := Node.view_read_equals monotone tree.ordered reached []
      rw [List.append_nil] at shown
      rw [whole, Nat.sub_eq_zero_of_le (Nat.le_succ _)]
      exact equals_symm shown
  | none =>
      obtain ⟨shown, isShown, isLeaf, _⟩ := read_of_missing monotone reached
      have further := Node.view_append_of_missing monotone keepsBottom
        (Node.descend?_take_longestPath reached)
        (path.drop ((tree.longestPath path).length + 1))
      rw [longestPath, List.take_append_drop, List.length_drop] at further
      rw [isLeaf]
      exact equals_trans further (monotone.iterate_equals (equals_symm isShown) _)

/-- Two reads are one read if the first is stored, the second goes nowhere, or what the first one
gives stays the same when it sinks. -/
theorem read_append_equals_iff
    (monotone : MonotoneMap sink) (keepsBottom : Domain.isBottom (sink Domain.bottom))
    {tree : Tree V} (normal : tree.Normal sink) (path rest : Path) :
    (tree.read sink (path ++ rest)).equals sink ((tree.read sink path).read sink rest) ↔
      tree.longestPath path = path ∨ rest = [] ∨
        Domain.equals (sink (tree.read sink path).root) (tree.read sink path).root := by
  have isStored : tree.longestPath path = path ↔ (tree.node.descend? path).isSome :=
    Node.longestPath_eq_iff
  rw [equals_iff_view monotone, isStored]
  cases reached : tree.node.descend? path with
  | some below =>
      refine iff_of_true (fun further => ?_) (Or.inl rfl)
      exact Node.NormalUnder.view_read_append_equals monotone tree.ordered normal
        (by rw [reached]; rfl) rest further
  | none =>
      cases rest with
      | nil =>
          refine iff_of_true (fun further => ?_) (Or.inr (Or.inl rfl))
          rw [List.append_nil, read_nil]
          exact equals_refl _
      | cons label rest =>
          obtain ⟨shown, _, isLeaf, isLeafBeyond⟩ := read_of_missing monotone reached
          have behind : (leaf shown).read sink (label :: rest) =
              leaf (sinkIntoChild sink Domain.bottom shown) :=
            rfl
          have passedOn := sinkIntoChild_bottom_equals monotone keepsBottom shown
          rw [isLeafBeyond, isLeaf, behind]
          constructor
          · intro same
            exact Or.inr (Or.inr (equals_symm (equals_trans (same []) passedOn)))
          · intro stays
            have sinksSame := (stays.resolve_left nofun).resolve_left nofun
            exact Node.view_leaf_equals monotone
              (equals_symm (equals_trans passedOn sinksSame))

/-! ## When all reads compose -/

theorem root_read_sinks_same
    (monotone : MonotoneMap sink) (keepsBottom : Domain.isBottom (sink Domain.bottom))
    (sinksOnce : ∀ value, Domain.equals (sink (sink value)) (sink value))
    {tree : Tree V} {path : Path} (missing : tree.node.descend? path = none) :
    Domain.equals (sink (tree.read sink path).root) (tree.read sink path).root := by
  obtain ⟨shown, isShown, isLeaf, _⟩ := read_of_missing monotone missing
  obtain ⟨above, isSunk⟩ := Node.exists_sink_of_missing monotone keepsBottom
    (Node.descend?_take_longestPath missing)
  have isSunkHere := equals_trans isShown isSunk
  rw [isLeaf]
  exact equals_trans (monotone.equals isSunkHere)
    (equals_trans (sinksOnce above) (equals_symm isSunkHere))

theorem sinks_once_of_root_read
    (monotone : MonotoneMap sink) (keepsBottom : Domain.isBottom (sink Domain.bottom)) {value : V}
    (same : Domain.equals (sink ((leaf value).read sink [.anyIndex]).root)
      ((leaf value).read sink [.anyIndex]).root) :
    Domain.equals (sink (sink value)) (sink value) := by
  have root : Domain.equals ((leaf value).read sink [.anyIndex]).root (sink value) :=
    sinkIntoChild_bottom_equals monotone keepsBottom value
  exact equals_trans (monotone.equals (equals_symm root)) (equals_trans same root)

theorem readsCompose_iff
    (monotone : MonotoneMap sink) (keepsBottom : Domain.isBottom (sink Domain.bottom)) :
    ReadsCompose sink ↔ ∀ value, Domain.equals (sink (sink value)) (sink value) := by
  constructor
  · intro compose value
    have normal : (leaf value).Normal sink := normal_leaf value
    have composed := compose (leaf value) normal [.anyIndex] [.anyIndex]
    rw [read_append_equals_iff monotone keepsBottom normal] at composed
    exact sinks_once_of_root_read monotone keepsBottom
      ((composed.resolve_left nofun).resolve_left nofun)
  · intro sinksOnce tree normal path rest
    rw [read_append_equals_iff monotone keepsBottom normal]
    cases reached : tree.node.descend? path with
    | some below =>
        exact Or.inl (Node.longestPath_of_descend? reached)
    | none =>
        exact Or.inr (Or.inr (root_read_sinks_same monotone keepsBottom sinksOnce reached))

theorem readsObserve_iff
    (monotone : MonotoneMap sink)
    (keepsJoins : ∀ left right,
      Domain.leq (sink (Domain.join left right)) (Domain.join (sink left) (sink right)))
    (keepsBottom : Domain.isBottom (sink Domain.bottom)) :
    ReadsObserve sink ↔ ∀ value, Domain.equals (sink (sink value)) (sink value) := by
  have isObserved := fun (tree : Tree V) (path : Path) =>
    Node.view_equals_observed monotone keepsJoins keepsBottom tree.node path
  constructor
  · intro observes value
    -- One level beyond the first missing node, the read lacks one sinking.
    have atRoot := observes (leaf value) (normal_leaf value) [.anyIndex, .anyIndex]
    have lacking :=
      view_equals_iterate_root monotone keepsBottom (leaf value) [.anyIndex, .anyIndex]
    exact sinks_once_of_root_read monotone keepsBottom
      (equals_symm (equals_trans atRoot (equals_trans (equals_symm (isObserved _ _)) lacking)))
  · intro sinksOnce tree normal path
    have further := view_equals_iterate_root monotone keepsBottom tree path
    refine equals_trans (equals_symm ?_) (isObserved tree path)
    refine equals_trans further ?_
    cases reached : tree.node.descend? path with
    | some below =>
        have whole : tree.longestPath path = path := Node.longestPath_of_descend? reached
        rw [whole, Nat.sub_eq_zero_of_le (Nat.le_succ _)]
        exact equals_refl _
    | none =>
        have sinksSame := root_read_sinks_same monotone keepsBottom sinksOnce reached
        exact monotone.iterate_equals_self sinksSame _

/-- A read sinks once per level down to the first missing node of its path and no further, while the
order goes on to sink.  So the root of a read is what is observed at its path, up to one sinking for
every level beyond the first missing node, and a second read repeats the last sinking of a first one
that is not stored.  All reads compose, and all roots are what is observed, exactly if to sink twice
is to sink once. -/
theorem read_sinks_to_first_missing
    (monotone : MonotoneMap sink)
    (keepsJoins : ∀ left right,
      Domain.leq (sink (Domain.join left right)) (Domain.join (sink left) (sink right)))
    (keepsBottom : Domain.isBottom (sink Domain.bottom)) :
    (∀ tree : Tree V, tree.Normal sink →
      (∀ other : Tree V, other.leq sink tree ↔
        ∀ path, Domain.leq (other.node.stored path) (tree.observed sink path)) ∧
      (∀ path, Domain.equals (tree.observed sink path)
        (sink^[path.length - ((tree.longestPath path).length + 1)]
          (tree.read sink path).root)) ∧
      ∀ path rest,
        (tree.read sink (path ++ rest)).equals sink ((tree.read sink path).read sink rest) ↔
          tree.longestPath path = path ∨ rest = [] ∨
            Domain.equals (sink (tree.read sink path).root) (tree.read sink path).root) ∧
    (ReadsCompose sink ↔ ∀ value, Domain.equals (sink (sink value)) (sink value)) ∧
    (ReadsObserve sink ↔ ∀ value, Domain.equals (sink (sink value)) (sink value)) := by
  refine ⟨fun tree normal => ⟨?_, ?_, ?_⟩, readsCompose_iff monotone keepsBottom,
    readsObserve_iff monotone keepsJoins keepsBottom⟩
  · intro other
    rw [leq_iff_stored_leq_view monotone]
    refine forall_congr' fun path => ?_
    have isObserved := equals_iff.mp
      (Node.view_equals_observed monotone keepsJoins keepsBottom tree.node path)
    exact ⟨fun covered => leq_trans covered isObserved.1,
      fun covered => leq_trans covered isObserved.2⟩
  · intro path
    have isObserved := Node.view_equals_observed monotone keepsJoins keepsBottom tree.node path
    exact equals_trans (equals_symm isObserved)
      (view_equals_iterate_root monotone keepsBottom tree path)
  · exact read_append_equals_iff monotone keepsBottom normal

end Tree

/-! ## Values that fade -/

namespace CollapseDepth

/-- A depth is one greater on each level further down, and gone beyond the third. -/
def fade : CollapseDepth → CollapseDepth
  | .bottom => .bottom
  | .level number => if number < 3 then .level (number + 1) else .bottom

theorem monotone_fade : MonotoneMap fade := by
  intro left right covered
  cases left with
  | bottom =>
      rfl
  | level leftNumber =>
      cases right with
      | bottom =>
          exact nomatch covered
      | level rightNumber =>
          have covers : rightNumber.toNat ≤ leftNumber.toNat := level_leq_level_iff.mp covered
          simp only [fade]
          split
          · rename_i small
            have smallNat : leftNumber.toNat < 3 := UInt32.lt_iff_toNat_lt.mp small
            have rightSmall : rightNumber < 3 :=
              UInt32.lt_iff_toNat_lt.mpr (Nat.lt_of_le_of_lt covers smallNat)
            rw [if_pos rightSmall]
            refine level_leq_level_iff.mpr ?_
            have one : (1 : UInt32).toNat = 1 := rfl
            rw [UInt32.toNat_add, UInt32.toNat_add, one]
            omega
          · rfl

theorem joinMap_fade : JoinMap fade := by
  intro left right
  refine AntisymmetricDomain.antisymm ?_
    (LawfulDomain.join_leq (monotone_fade (LawfulDomain.leq_join_left _ _))
      (monotone_fade (LawfulDomain.leq_join_right _ _)))
  rcases join_cases left right with ⟨isLeft, _⟩ | ⟨isRight, _⟩
  · have same : Domain.join left right = left := isLeft
    rw [same]
    exact LawfulDomain.leq_join_left _ _
  · have same : Domain.join left right = right := isRight
    rw [same]
    exact LawfulDomain.leq_join_right _ _

end CollapseDepth

namespace Tree

open CollapseDepth

/-- A depth at the root fades once on the way to a field of a field in one read, and twice in two
reads and in the order. -/
theorem faded_reads_differ :
    MonotoneMap fade ∧ JoinMap fade ∧ Domain.isBottom (fade Domain.bottom) ∧
    (leaf (.level 0)).Normal fade ∧
    ¬ ((leaf (.level 0)).read fade ([.field "x"] ++ [.field "y"])).equals fade
        (((leaf (.level 0)).read fade [.field "x"]).read fade [.field "y"]) ∧
    ¬ Domain.equals ((leaf (.level 0)).read fade [.field "x", .field "y"]).root
        ((leaf (.level 0)).observed fade [.field "x", .field "y"]) :=
  ⟨monotone_fade, joinMap_fade, rfl, normal_leaf _, of_decide_eq_false (by cbv),
    of_decide_eq_false (by cbv)⟩

/-- A depth at the root that fades, and a depth two levels below that covers what is left of it. -/
def fadingTree : Tree CollapseDepth :=
  ofEdges fade [([], .level 0), ([.field "x", .field "y"], .level 1)]

/-- Reads compose behind a stored field and not behind a missing one; two levels beyond a stored
field, one sinking is lacking. -/
theorem read_sinks_to_first_missing_fading :
    MonotoneMap fade ∧ JoinMap fade ∧ Domain.isBottom (fade Domain.bottom) ∧
    fadingTree.Normal fade ∧
    Domain.equals (fadingTree.observed fade [.field "x", .field "y", .anyIndex, .anyIndex])
      (fade (fadingTree.read fade [.field "x", .field "y", .anyIndex, .anyIndex]).root) ∧
    (fadingTree.read fade ([.field "x"] ++ [.field "y", .anyIndex])).equals fade
      ((fadingTree.read fade [.field "x"]).read fade [.field "y", .anyIndex]) ∧
    ¬ (fadingTree.read fade ([.anyIndex] ++ [.field "y"])).equals fade
      ((fadingTree.read fade [.anyIndex]).read fade [.field "y"]) ∧
    ¬ ReadsCompose fade ∧ ¬ ReadsObserve fade := by
  have keepsJoins : ∀ left right, Domain.leq (fade (Domain.join left right))
      (Domain.join (fade left) (fade right)) := by
    intro left right
    rw [joinMap_fade left right]
    exact LawfulDomain.leq_refl _
  have normal : fadingTree.Normal fade := normal_ofEdges monotone_fade _
  obtain ⟨atTree, composes, observes⟩ :=
    read_sinks_to_first_missing monotone_fade keepsJoins rfl
  obtain ⟨_, isObserved, isComposed⟩ := atTree fadingTree normal
  have beyond := isObserved [.field "x", .field "y", .anyIndex, .anyIndex]
  have longest : fadingTree.longestPath [.field "x", .field "y", .anyIndex, .anyIndex] =
      [.field "x", .field "y"] :=
    of_decide_eq_true (by cbv)
  rw [longest] at beyond
  have fadesTwice : ¬ ∀ depth, Domain.equals (fade (fade depth)) (fade depth) := by
    intro fadesOnce
    cases fadesOnce (.level 0)
  refine ⟨monotone_fade, joinMap_fade, rfl, normal, beyond,
    (isComposed _ _).mpr (Or.inl (of_decide_eq_true (by cbv))),
    (isComposed _ _).not.mpr (of_decide_eq_false (by cbv)), composes.not.mpr fadesTwice,
    observes.not.mpr fadesTwice⟩

end Tree

end AliasTaint
