import AliasTaint.Tree.Merge

/-!
# Reading, writing and comparing trees

A read gives the tree below a path together with what its ancestors sink into it; a raw read leaves
the ancestors out. A write grafts a tree at a path and leaves every other path as it was. The order
compares what the trees show, path by path.
-/

namespace AliasTaint.Node

variable {V : Type} [Domain V]

/-! ## Reads -/

/-- The tree below a path, given what the node itself inherits. -/
def readUnder (sink : V → V) (inherited : V) : Path → Node V → Node V
  | [], node =>
      if Domain.isBottom inherited then
        node
      else
        normalize sink (.mk (Domain.join node.value inherited) node.children)
  | label :: path, node =>
      match node.child? label with
      | none => leaf (sinkIntoChild sink inherited node.value)
      | some child => readUnder sink (sinkIntoChild sink inherited node.value) path child

/-- The tree below a path, with what the ancestors sink into it. -/
def read (sink : V → V) (node : Node V) (path : Path) : Node V :=
  readUnder sink Domain.bottom path node

/-- The tree stored below a path, without its ancestors. -/
def rawRead (node : Node V) (path : Path) : Node V :=
  (node.descend? path).getD bottom

omit [Domain V] in
/-- The longest beginning of a path that leads to a stored node. -/
def longestPath : Path → Node V → Path
  | [], _ => []
  | label :: path, node =>
      match node.child? label with
      | none => []
      | some child => label :: longestPath path child

/-! ## Writes -/

/-- The node with another child under a label; a child that stores nothing is left out. -/
def withChild (node : Node V) (label : PathElement) (child : Node V) : Node V :=
  match child.nonBottom? with
  | none => .mk node.value (Entries.erase label node.children)
  | some kept => .mk node.value (Entries.insert label kept node.children)

/-- Grafts a tree at a path, given what the node itself inherits. -/
def graftUnder (sink : V → V) (kind : UpdateKind) (tree : Node V) (inherited : V) :
    Path → Node V → Node V
  | [], node =>
      let current := match kind with
        | .strong => bottom
        | .weak => node
      merge sink .join (.inResult inherited) current tree
  | label :: path, node =>
      node.withChild label
        (graftUnder sink kind tree (sinkIntoChild sink inherited node.value) path
          (node.childOrBottom label))

/-- Grafts a tree at a path. A strong graft replaces what is stored at and below the path, a weak
one joins to it; what the ancestors sink there is not stored again. -/
def graft (sink : V → V) (node : Node V) (path : Path) (tree : Node V) (kind : UpdateKind) :
    Node V :=
  graftUnder sink kind tree Domain.bottom path node

/-! ## The order -/

mutual

/-- Every value stored on the left is covered by what the right shows, given what the right node
inherits; a missing right node shows only that. -/
def leqUnder (sink : V → V) (inherited : V) : Node V → Option (Node V) → Bool
  | .mk value children, right =>
      let shown := match right with
        | some node => Domain.join inherited node.value
        | none => inherited
      Domain.leq value shown &&
        leqChildren sink (sinkIntoChild sink Domain.bottom shown) right children

def leqChildren (sink : V → V) (inherited : V) (right : Option (Node V)) :
    List (PathElement × Node V) → Bool
  | [] => true
  | (label, left) :: rest =>
      leqUnder sink inherited left (right.bind fun node => node.child? label) &&
        leqChildren sink inherited right rest

end

/-- Every stored value is covered by what the right tree shows at its path. -/
def leq (sink : V → V) (left right : Node V) : Bool :=
  leqUnder sink Domain.bottom left (some right)

/-! ## Ordered results -/

theorem Ordered.readUnder (sink : V → V) (path : Path) (inherited : V) (node : Node V) :
    node.Ordered → (readUnder sink inherited path node).Ordered := by
  induction path generalizing inherited node with
  | nil =>
      intro ordered
      simp only [Node.readUnder]
      split
      · exact ordered
      · exact Ordered.normalize sink (.mk ordered.increasing ordered.children)
  | cons label path inductionHypothesis =>
      intro ordered
      simp only [Node.readUnder]
      split
      · exact ordered_leaf _
      · rename_i child found
        exact inductionHypothesis _ child (ordered.child? found)

theorem Ordered.read (sink : V → V) {node : Node V} (ordered : node.Ordered) (path : Path) :
    (node.read sink path).Ordered :=
  Ordered.readUnder sink path Domain.bottom node ordered

omit [Domain V] in
theorem Ordered.descend? (path : Path) {node found : Node V} :
    node.Ordered → node.descend? path = some found → found.Ordered := by
  induction path generalizing node with
  | nil =>
      intro ordered isFound
      exact Option.some.inj isFound ▸ ordered
  | cons label path inductionHypothesis =>
      intro ordered isFound
      obtain ⟨child, childFound, below⟩ := Option.bind_eq_some_iff.mp isFound
      exact inductionHypothesis (ordered.child? childFound) below

theorem Ordered.rawRead {node : Node V} (ordered : node.Ordered) (path : Path) :
    (node.rawRead path).Ordered := by
  unfold Node.rawRead
  cases found : node.descend? path with
  | none => exact ordered_bottom
  | some below => exact ordered.descend? path found

theorem Ordered.withChild {node child : Node V}
    (ordered : node.Ordered) (label : PathElement) (childOrdered : child.Ordered) :
    (node.withChild label child).Ordered := by
  unfold Node.withChild
  split
  · refine .mk (ordered.increasing.erase label) ?_
    intro entry member
    exact ordered.children entry (List.mem_filter.mp member).1
  · rename_i kept isKept
    refine .mk (ordered.increasing.insert label kept) ?_
    intro entry member
    rcases Entries.eq_or_mem_of_mem_insert member with isNew | isOld
    · subst isNew
      exact eq_of_nonBottom? isKept ▸ childOrdered
    · exact ordered.children entry isOld

theorem Ordered.graftUnder
    (sink : V → V) (kind : UpdateKind) {tree : Node V} (treeOrdered : tree.Ordered)
    (path : Path) (inherited : V) (node : Node V) :
    node.Ordered → (graftUnder sink kind tree inherited path node).Ordered := by
  induction path generalizing inherited node with
  | nil =>
      intro ordered
      simp only [Node.graftUnder]
      refine Ordered.merge sink .join _ _ tree ?_ treeOrdered
      cases kind with
      | strong => exact ordered_bottom
      | weak => exact ordered
  | cons label path inductionHypothesis =>
      intro ordered
      exact ordered.withChild label
        (inductionHypothesis _ _ (ordered.childOrBottom label))

theorem Ordered.graft
    (sink : V → V) {node tree : Node V} (ordered : node.Ordered) (treeOrdered : tree.Ordered)
    (path : Path) (kind : UpdateKind) :
    (node.graft sink path tree kind).Ordered :=
  Ordered.graftUnder sink kind treeOrdered path Domain.bottom node ordered

end AliasTaint.Node
