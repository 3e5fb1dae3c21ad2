import AliasTaint.Tree.Merge

/-!
# Collapsing trees

To collapse a node is to move every value stored below it into the node itself. Each moved value is
first marked by a given function; values that are bottom are not moved. A bounded collapse does this
to the nodes at one depth, and leaves a tree of that height at most.

Values are taken from the last child to the first, a node before its children. For domains that are
lattices the order does not matter.
-/

namespace AliasTaint.Node

variable {V : Type}

/-! ## The values below a node -/

mutual

/-- The values stored at and below a node, a node before its children, the last child first. -/
def valuesDown : Node V → List V
  | .mk value children => value :: valuesDownOf children

def valuesDownOf : List (PathElement × Node V) → List V
  | [] => []
  | (_, node) :: rest => valuesDownOf rest ++ node.valuesDown

end

variable [Domain V]

/-- Joins a marked value to what was gathered so far. -/
def gather (mark : V → V) (gathered value : V) : V :=
  if Domain.isBottom value then gathered else Domain.join gathered (mark value)

/-- The stored value joined with every marked value below it. -/
def collapse (mark : V → V) (node : Node V) : V :=
  (valuesDownOf node.children).foldl (gather mark) node.value

/-! ## Collapsing in place -/

mutual

/-- Takes in the marked values stored at and below a node. -/
def absorb (mark : V → V) (gathered : V) : Node V → V
  | .mk value children => absorbAll mark (gather mark gathered value) children

def absorbAll (mark : V → V) (gathered : V) : List (PathElement × Node V) → V
  | [] => gathered
  | (_, node) :: rest => absorb mark (absorbAll mark gathered rest) node

end

/-- The node without children that has taken in everything below it. -/
def flatten (mark : V → V) : Node V → Node V
  | .mk value children => leaf (absorbAll mark value children)

mutual

/-- Flattens the nodes at a depth. -/
def flattenAt (mark : V → V) : Node V → Nat → Node V
  | node@(.mk _ _), 0 => node.flatten mark
  | .mk value children, depth + 1 => .mk value (flattenAllAt mark children depth)

def flattenAllAt (mark : V → V) :
    List (PathElement × Node V) → Nat → List (PathElement × Node V)
  | [], _ => []
  | (label, node) :: rest, depth =>
      (label, flattenAt mark node depth) :: flattenAllAt mark rest depth

end

/-- Collapses everything deeper than a height, and restores the normal form. -/
def collapseDeeperThan (sink : V → V) (height : Nat) (mark : V → V) (node : Node V) : Node V :=
  normalize sink (node.flattenAt mark height)

/-- Some value above bottom is stored deeper than a height. -/
def reachesBelow (node : Node V) (height : Nat) : Bool :=
  node.visit.any fun stored => height < stored.1.length

/-! ## Ordered results -/

theorem flattenAllAt_eq_map
    (mark : V → V) (children : List (PathElement × Node V)) (depth : Nat) :
    flattenAllAt mark children depth =
      children.map fun entry => (entry.1, entry.2.flattenAt mark depth) := by
  induction children with
  | nil => rfl
  | cons entry rest inductionHypothesis =>
      simp only [flattenAllAt, inductionHypothesis, List.map_cons]

theorem Ordered.flattenAt (mark : V → V) (node : Node V) (depth : Nat) :
    node.Ordered → (node.flattenAt mark depth).Ordered := by
  induction node using Node.induction generalizing depth with
  | step value children inductionHypothesis =>
      intro ordered
      cases depth with
      | zero => exact ordered_leaf _
      | succ depth =>
          rw [Node.flattenAt, flattenAllAt_eq_map]
          refine .mk (ordered.increasing.mapValues _) ?_
          intro entry member
          obtain ⟨source, sourceMember, rfl⟩ := List.mem_map.mp member
          exact inductionHypothesis source sourceMember depth
            (ordered.children source sourceMember)

theorem Ordered.collapseDeeperThan
    (sink : V → V) (height : Nat) (mark : V → V) {node : Node V} (ordered : node.Ordered) :
    (node.collapseDeeperThan sink height mark).Ordered :=
  Ordered.normalize sink (Ordered.flattenAt mark node height ordered)

end AliasTaint.Node
