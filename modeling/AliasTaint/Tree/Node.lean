import AliasTaint.Access.Path
import AliasTaint.Domain
import AliasTaint.Sorted.Entries

/-!
# Nodes of path-indexed trees

A node stores a value of a domain and has children, each reached by one path element. The value that
a node stores is not the value that a tree shows there: what the ancestors store counts as well.
This module has the nodes as data, and the operations that look at stored values only.
-/

namespace AliasTaint

/-- A stored value with labelled children. -/
inductive Node (V : Type) where
  | mk (value : V) (children : List (PathElement × Node V))

namespace Node

variable {V W : Type}

/-! ## Parts of a node -/

def value : Node V → V
  | .mk value _ => value

def children : Node V → List (PathElement × Node V)
  | .mk _ children => children

/-- A node without children. -/
def leaf (value : V) : Node V :=
  .mk value []

/-- The child with a label. -/
def child? (node : Node V) (label : PathElement) : Option (Node V) :=
  node.children.lookup label

/-- The stored node that a path leads to. -/
def descend? : Path → Node V → Option (Node V)
  | [], node => some node
  | label :: path, node => (node.child? label).bind (descend? path)

section Bottom

variable [Domain V]

/-- The node that stores nothing. -/
def bottom : Node V :=
  leaf Domain.bottom

def isBottom (node : Node V) : Bool :=
  Domain.isBottom node.value && node.children.isEmpty

/-- The node, unless it stores nothing. -/
def nonBottom? (node : Node V) : Option (Node V) :=
  if node.isBottom then none else some node

/-- The child with a label, where a missing child stores nothing. -/
def childOrBottom (node : Node V) (label : PathElement) : Node V :=
  (node.child? label).getD bottom

end Bottom

/-! ## Equality -/

mutual

/-- Decides whether two nodes store the same values under the same labels. -/
def decideEq [DecidableEq V] : (left right : Node V) → Decidable (left = right)
  | .mk leftValue leftChildren, .mk rightValue rightChildren =>
      if sameValue : leftValue = rightValue then
        match decideEqChildren leftChildren rightChildren with
        | isTrue sameChildren => isTrue (by rw [sameValue, sameChildren])
        | isFalse different => isFalse fun equal => different (Node.mk.inj equal).2
      else
        isFalse fun equal => sameValue (Node.mk.inj equal).1

def decideEqChildren [DecidableEq V] :
    (left right : List (PathElement × Node V)) → Decidable (left = right)
  | [], [] => isTrue rfl
  | [], _ :: _ => isFalse nofun
  | _ :: _, [] => isFalse nofun
  | (leftLabel, leftNode) :: leftRest, (rightLabel, rightNode) :: rightRest =>
      if sameLabel : leftLabel = rightLabel then
        match decideEq leftNode rightNode with
        | isTrue sameNode =>
            match decideEqChildren leftRest rightRest with
            | isTrue sameRest => isTrue (by rw [sameLabel, sameNode, sameRest])
            | isFalse different => isFalse fun equal => different (List.cons.inj equal).2
        | isFalse different =>
            isFalse fun equal => different (Prod.mk.inj (List.cons.inj equal).1).2
      else
        isFalse fun equal => sameLabel (Prod.mk.inj (List.cons.inj equal).1).1

end

instance [DecidableEq V] : DecidableEq (Node V) := decideEq

/-! ## Walking through all nodes -/

mutual

/-- The length of the longest path to a stored node. -/
def height : Node V → Nat
  | .mk _ children => heightOf children

def heightOf : List (PathElement × Node V) → Nat
  | [] => 0
  | (_, node) :: rest => max (node.height + 1) (heightOf rest)

end

mutual

/-- Every stored node with its path and value, a node before its children. -/
def nodes : Node V → List (Path × V)
  | .mk value children => ([], value) :: nodesOf children

def nodesOf : List (PathElement × Node V) → List (Path × V)
  | [] => []
  | (label, node) :: rest =>
      node.nodes.map (fun stored => (label :: stored.1, stored.2)) ++ nodesOf rest

end

mutual

/-- Every stored node with its path and value, a node after its children. -/
def nodesUp : Node V → List (Path × V)
  | .mk value children => nodesUpOf children ++ [([], value)]

def nodesUpOf : List (PathElement × Node V) → List (Path × V)
  | [] => []
  | (label, node) :: rest =>
      node.nodesUp.map (fun stored => (label :: stored.1, stored.2)) ++ nodesUpOf rest

end

mutual

/-- Changes every stored value. -/
def mapValues (change : V → W) : Node V → Node W
  | .mk value children => .mk (change value) (mapValuesOf change children)

def mapValuesOf (change : V → W) :
    List (PathElement × Node V) → List (PathElement × Node W)
  | [] => []
  | (label, node) :: rest => (label, node.mapValues change) :: mapValuesOf change rest

end

section Visits

variable [Domain V]

/-- The stored values above bottom with their paths, a node before its children. -/
def visit (node : Node V) : List (Path × V) :=
  node.nodes.filter fun stored => !Domain.isBottom stored.2

/-- The stored values above bottom with their paths, a node after its children. -/
def visitUp (node : Node V) : List (Path × V) :=
  node.nodesUp.filter fun stored => !Domain.isBottom stored.2

end Visits

/-! ## Ordered children -/

/-- At every node the labels of the children strictly increase. -/
inductive Ordered : Node V → Prop
  | mk {value : V} {children : List (PathElement × Node V)}
      (increasing : Entries.Increasing children)
      (inside : ∀ entry ∈ children, Ordered entry.2) :
      Ordered (.mk value children)

theorem Ordered.increasing {node : Node V} (ordered : node.Ordered) :
    Entries.Increasing node.children := by
  cases ordered with
  | mk increasing _ => exact increasing

theorem Ordered.children {node : Node V} (ordered : node.Ordered) :
    ∀ entry ∈ node.children, Ordered entry.2 := by
  cases ordered with
  | mk _ inside => exact inside

theorem ordered_leaf (value : V) : (leaf value).Ordered :=
  .mk Entries.increasing_nil nofun

theorem ordered_bottom [Domain V] : (bottom : Node V).Ordered :=
  ordered_leaf _

theorem Ordered.child? {node child : Node V} {label : PathElement}
    (ordered : node.Ordered) (found : node.child? label = some child) :
    child.Ordered :=
  ordered.children (label, child) (Entries.mem_of_lookup found)

theorem Ordered.childOrBottom [Domain V] {node : Node V} (ordered : node.Ordered)
    (label : PathElement) : (node.childOrBottom label).Ordered := by
  unfold Node.childOrBottom
  cases found : node.child? label with
  | none => exact ordered_bottom
  | some child => exact ordered.child? found

mutual

/-- A statement holds of every node if it passes from the children of a node to the node. -/
theorem induction {motive : Node V → Prop}
    (step : ∀ value children,
      (∀ entry ∈ children, motive entry.2) → motive (.mk value children)) :
    ∀ node, motive node
  | .mk value children => step value children (induction_children step children)

theorem induction_children {motive : Node V → Prop}
    (step : ∀ value children,
      (∀ entry ∈ children, motive entry.2) → motive (.mk value children)) :
    ∀ children : List (PathElement × Node V), ∀ entry ∈ children, motive entry.2
  | [], _, member => nomatch member
  | (_, node) :: rest, entry, member =>
      match List.mem_cons.mp member with
      | Or.inl same => same ▸ induction step node
      | Or.inr inRest => induction_children step rest entry inRest

end

theorem mapValuesOf_eq_map (change : V → W) (children : List (PathElement × Node V)) :
    mapValuesOf change children =
      children.map fun entry => (entry.1, entry.2.mapValues change) := by
  induction children with
  | nil => rfl
  | cons entry rest inductionHypothesis =>
      simp only [mapValuesOf, inductionHypothesis, List.map_cons]

theorem Ordered.mapValues (change : V → W) (node : Node V) :
    node.Ordered → (node.mapValues change).Ordered := by
  induction node using Node.induction with
  | step value children inductionHypothesis =>
      intro ordered
      rw [Node.mapValues, mapValuesOf_eq_map]
      refine .mk (ordered.increasing.mapValues _) ?_
      intro entry member
      obtain ⟨source, sourceMember, rfl⟩ := List.mem_map.mp member
      exact inductionHypothesis source sourceMember (ordered.children source sourceMember)

end Node

end AliasTaint
