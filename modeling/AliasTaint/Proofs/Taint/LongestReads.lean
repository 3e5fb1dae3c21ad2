import AliasTaint.Proofs.Taint.Equality
import AliasTaint.Proofs.Tree.ReadComposition

/-!
# Reads that stop at the last stored node

A path may lead out of a tree.  A longest read follows it as far as nodes are stored, and reads
there instead.  Of all the stored nodes that the path leads through, it finds the last one.

Where values sink unchanged, nothing is lost by stopping there: each missing node only passes on
what the last stored one shows, so the read of the whole path is that value and nothing below it.
-/

namespace AliasTaint

open Domain

variable {V : Type}

namespace Node

/-! ## Nodes on the way along a path -/

theorem isSome_descend?_iff_mem_nodes {node : Node V} (ordered : node.Ordered) {path : Path} :
    (node.descend? path).isSome ↔ path ∈ node.nodes.map Prod.fst := by
  simp only [List.mem_map, Prod.exists, exists_and_right, exists_eq_right, Option.isSome_iff_exists,
    mem_nodes_iff_descend? ordered]
  constructor
  · rintro ⟨below, reached⟩
    exact ⟨below.value, below, reached, rfl⟩
  · rintro ⟨_, below, reached, _⟩
    exact ⟨below, reached⟩

theorem longestPath_isPrefix (node : Node V) (path : Path) : node.longestPath path <+: path := by
  induction path generalizing node with
  | nil =>
      exact List.prefix_refl []
  | cons label path inductionHypothesis =>
      rw [longestPath]
      cases node.child? label with
      | none =>
          exact List.nil_prefix
      | some child =>
          exact (List.prefix_cons_inj label).mpr (inductionHypothesis child)

theorem exists_descend?_longestPath (node : Node V) (path : Path) :
    ∃ below, node.descend? (node.longestPath path) = some below := by
  induction path generalizing node with
  | nil =>
      exact ⟨node, rfl⟩
  | cons label path inductionHypothesis =>
      rw [longestPath]
      cases found : node.child? label with
      | none =>
          exact ⟨node, rfl⟩
      | some child =>
          obtain ⟨below, reached⟩ := inductionHypothesis child
          exact ⟨below, by rwa [descend?, found]⟩

/-- No stored node on the way is beyond the last one. -/
theorem isPrefix_longestPath {node : Node V} {path other : Path}
    (onTheWay : other <+: path) (reached : (node.descend? other).isSome) :
    other <+: node.longestPath path := by
  obtain ⟨rest, rfl⟩ := onTheWay
  obtain ⟨below, isBelow⟩ := Option.isSome_iff_exists.mp reached
  rw [longestPath_append isBelow]
  exact List.prefix_append other _

/-- The first missing node of a path is one step beyond the last stored one. -/
theorem take_longestPath {node : Node V} {path : Path} (leaves : node.longestPath path ≠ path) :
    ∃ label, path.take ((node.longestPath path).length + 1) =
      node.longestPath path ++ [label] := by
  induction path generalizing node with
  | nil =>
      exact absurd rfl leaves
  | cons label path inductionHypothesis =>
      rw [longestPath] at leaves ⊢
      cases found : node.child? label with
      | none =>
          exact ⟨label, rfl⟩
      | some child =>
          rw [found] at leaves
          obtain ⟨next, isNext⟩ := inductionHypothesis (mt (congrArg (label :: ·)) leaves)
          exact ⟨next, congrArg (label :: ·) isNext⟩

/-- A read that leads out of the tree gives what the last stored node on its way shows. -/
theorem read_eq_leaf_of_leaves [Domain V] {Good : V → Prop} [SemilatticeOn Good] {node : Node V}
    (stores : node.Stores Good) {path : Path} (leaves : node.longestPath path ≠ path) :
    node.read id path = leaf (node.view id (node.longestPath path)) := by
  have missing : node.descend? path = none := by
    rwa [← Option.not_isSome_iff_eq_none, ← longestPath_eq_iff]
  have isRead := readUnder_append_of_missing missing id Domain.bottom []
  obtain ⟨label, firstMissing⟩ := take_longestPath leaves
  -- What the ancestors sink into the first missing node is what is shown one step above it.
  rwa [List.append_nil, firstMissing, sunkFrom_concat_eq_view stores] at isRead

end Node

/-- Of the stored nodes that a path leads through, a path leads to the last one. -/
structure Tree.LastStored (tree : Tree V) (path found : Path) : Prop where
  onTheWay : found <+: path
  stored : found ∈ tree.nodes.map Prod.fst
  last (other : Path) : other <+: path → other ∈ tree.nodes.map Prod.fst → other <+: found

theorem Tree.lastStored_longestPath (tree : Tree V) (path : Path) :
    tree.LastStored path (tree.longestPath path) := by
  refine ⟨tree.node.longestPath_isPrefix path, ?_, ?_⟩
  · refine (Node.isSome_descend?_iff_mem_nodes tree.ordered).mp ?_
    exact Option.isSome_iff_exists.mpr (tree.node.exists_descend?_longestPath path)
  · intro other onTheWay isStored
    exact Node.isPrefix_longestPath onTheWay
      ((Node.isSome_descend?_iff_mem_nodes tree.ordered).mpr isStored)

namespace TaintTree

variable {heuristics : Heuristics}

/-- A longest read finds the last stored node on its way, and a raw one finds the same node and
gives what is stored from there on.  The read there shows what the tree shows from there on, and a
path that leads further reads the root of it. -/
theorem readLongest_stops_at_last_stored {tree : TaintTree heuristics} (normal : tree.Normal)
    (path : Path) :
    ∃ found shown stored,
      tree.readLongest path = (found, shown) ∧ tree.rawReadLongest path = (found, stored) ∧
      tree.tree.LastStored path found ∧
      tree.tree.node.descend? found = some stored.tree.node ∧
      (∀ below taint, (below, taint) ∈ stored.tree.nodes ↔
        (found ++ below, taint) ∈ tree.tree.nodes) ∧
      shown = tree.read found ∧ (∀ below, shown.view below = tree.view (found ++ below)) ∧
      (found ≠ path → tree.read path = leaf shown.root) := by
  obtain ⟨below, reached⟩ := tree.tree.node.exists_descend?_longestPath path
  have isStored : tree.tree.node.rawRead (tree.tree.longestPath path) = below := by
    rw [Node.rawRead, Tree.longestPath, reached, Option.getD_some]
  refine ⟨tree.tree.longestPath path, tree.read (tree.tree.longestPath path),
    tree.rawRead (tree.tree.longestPath path), rfl, rfl, tree.tree.lastStored_longestPath path,
    reached.trans (congrArg some isStored.symm), ?nodes, rfl, view_read normal.wellFormed _,
    ?leaves⟩
  case nodes =>
    intro rest taint
    have sameBelow := Node.descend?_append reached rest
    rw [← isStored] at sameBelow
    rw [Tree.nodes, Tree.nodes, Node.mem_nodes_iff_descend? tree.tree.ordered]
    refine (Node.mem_nodes_iff_descend? (tree.tree.ordered.rawRead _)).trans ?_
    rw [← sameBelow]
    rfl
  case leaves =>
    intro leaves
    have root : (tree.read (tree.tree.longestPath path)).root =
        tree.view (tree.tree.longestPath path ++ []) :=
      view_read normal.wellFormed _ []
    rw [root, List.append_nil]
    exact congrArg mk (Tree.ext_node (Node.read_eq_leaf_of_leaves normal.wellFormed leaves))

/-- Taint of a root and of the elements of a field, where the field stores nothing itself. -/
def taintAroundField : TaintTree .standard :=
  .ofEdges [([], .ofKind ⟨"A"⟩), ([.field "f", .anyIndex], .ofKind ⟨"B"⟩)]

/-- A path that leaves the tree at a node without taint of its own reads the taint of the root. -/
theorem readLongest_stops_at_last_stored_field :
    taintAroundField.Normal ∧
    (taintAroundField.readLongest [.field "f", .field "g", .anyIndex]).1 = [.field "f"] ∧
    taintAroundField.tree.LastStored [.field "f", .field "g", .anyIndex] [.field "f"] ∧
    taintAroundField.read [.field "f", .field "g", .anyIndex] =
      leaf (taintAroundField.read [.field "f"]).root ∧
    (taintAroundField.read [.field "f"]).root = .ofKind ⟨"A"⟩ := by
  have normal : taintAroundField.Normal := normal_ofEdges (of_decide_eq_true (by cbv))
  have isFound : (taintAroundField.readLongest [.field "f", .field "g", .anyIndex]).1 =
      [.field "f"] := by
    cbv
  obtain ⟨found, shown, _, isRead, _, lastStored, _, _, isShown, _, leaves⟩ :=
    readLongest_stops_at_last_stored normal [.field "f", .field "g", .anyIndex]
  rw [isRead] at isFound
  cases isFound
  rw [isShown] at leaves
  exact ⟨normal, congrArg Prod.fst isRead, lastStored, leaves (by decide),
    of_decide_eq_true (by cbv)⟩

end TaintTree

end AliasTaint
