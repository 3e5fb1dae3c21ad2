import AliasTaint.Tree.Access
import AliasTaint.Tree.Collapse

/-!
# Path-indexed trees

A tree assigns a value of a domain to every access path. It is stored as nodes with ordered
children. How values travel in a tree is a matter of policy: what an ancestor sinks into its
descendants, how high widening lets a tree grow, and how values are marked that are moved upwards.
-/

namespace AliasTaint

/-! ## Policies -/

/-- How values are marked that are moved upwards, or the reason why none ever are. -/
abbrev Hook (ε V : Type) := Except ε (V → V)

/-- Marks one value. -/
def Hook.call {ε V : Type} (hook : Hook ε V) (value : V) : Except ε V :=
  hook.map fun mark => mark value

/-- The policy of a kind of trees. -/
structure Policy (ε V : Type) where
  /-- The greatest height after widening, if it is bounded. -/
  maxHeight : Option Nat
  /-- Marks the values that widening moves upwards. -/
  onWidening : Hook ε V
  /-- What a value becomes one level further down. -/
  sink : V → V
  /-- Marks the values that are moved upwards outside widening. -/
  onHoist : Hook ε V

/-- A result that no reason can prevent. -/
def Policy.certain {α : Type} : Except Empty α → α
  | .ok result => result
  | .error impossible => nomatch impossible

/-! ## Trees -/

/-- A tree of values indexed by access paths. -/
structure Tree (V : Type) where
  node : Node V
  ordered : node.Ordered

namespace Tree

variable {V : Type}

theorem ext_node : {left right : Tree V} → left.node = right.node → left = right
  | ⟨_, _⟩, ⟨_, _⟩, rfl => rfl

instance [DecidableEq V] : DecidableEq (Tree V) := fun left right =>
  if same : left.node = right.node then
    isTrue (ext_node same)
  else
    isFalse fun equal => same (congrArg node equal)

/-- A tree with one value at its root. -/
def leaf (value : V) : Tree V :=
  ⟨.leaf value, Node.ordered_leaf value⟩

/-! ## Looking at a tree -/

/-- The value stored at the root. -/
def root (tree : Tree V) : V :=
  tree.node.value

/-- The labels of the children of the root. -/
def labels (tree : Tree V) : List PathElement :=
  tree.node.children.map Prod.fst

/-- The tree stored under a label of the root. -/
def child? (tree : Tree V) (label : PathElement) : Option (Tree V) :=
  match found : tree.node.child? label with
  | none => none
  | some child => some ⟨child, tree.ordered.child? found⟩

/-- The length of the longest path to a stored node. -/
def height (tree : Tree V) : Nat :=
  tree.node.height

/-- Every stored node with its path and value, a node before its children. -/
def nodes (tree : Tree V) : List (Path × V) :=
  tree.node.nodes

/-- The longest beginning of a path that leads to a stored node. -/
def longestPath (tree : Tree V) (path : Path) : Path :=
  tree.node.longestPath path

section Operations

variable [Domain V]

def bottom : Tree V :=
  leaf Domain.bottom

def isBottom (tree : Tree V) : Bool :=
  tree.node.isBottom

def isTop (tree : Tree V) : Bool :=
  Domain.isTop tree.node.value && tree.node.children.isEmpty

/-- The stored values above bottom with their paths, a node before its children. -/
def visit (tree : Tree V) : List (Path × V) :=
  tree.node.visit

/-- The stored values above bottom with their paths, a node after its children. -/
def visitUp (tree : Tree V) : List (Path × V) :=
  tree.node.visitUp

/-! ## Reads and writes -/

/-- The tree below a path, with what the ancestors sink into it. -/
def read (sink : V → V) (tree : Tree V) (path : Path) : Tree V :=
  ⟨tree.node.read sink path, tree.ordered.read sink path⟩

/-- The tree stored below a path, without its ancestors. -/
def rawRead (tree : Tree V) (path : Path) : Tree V :=
  ⟨tree.node.rawRead path, tree.ordered.rawRead path⟩

/-- The longest stored beginning of a path, and the read there. -/
def readLongest (sink : V → V) (tree : Tree V) (path : Path) : Path × Tree V :=
  (tree.longestPath path, tree.read sink (tree.longestPath path))

/-- The longest stored beginning of a path, and the raw read there. -/
def rawReadLongest (tree : Tree V) (path : Path) : Path × Tree V :=
  (tree.longestPath path, tree.rawRead (tree.longestPath path))

/-- Grafts a tree at a path. -/
def writeTree (sink : V → V) (tree : Tree V) (path : Path) (grafted : Tree V)
    (kind : UpdateKind) : Tree V :=
  ⟨tree.node.graft sink path grafted.node kind,
    Node.Ordered.graft sink tree.ordered grafted.ordered path kind⟩

/-- Writes one value at a path. -/
def write (sink : V → V) (tree : Tree V) (path : Path) (value : V) (kind : UpdateKind) : Tree V :=
  tree.writeTree sink path (leaf value) kind

/-- Writes values at paths, one after the other, each joined to what was there. -/
def ofEdges (sink : V → V) (edges : List (Path × V)) : Tree V :=
  edges.foldl (fun tree edge => tree.write sink edge.1 edge.2 .weak) bottom

/-! ## Changing values -/

/-- Restores the normal form. -/
def normalize (sink : V → V) (tree : Tree V) : Tree V :=
  ⟨tree.node.normalize sink, tree.ordered.normalize sink⟩

/-- Changes the value at the root. -/
def updateRoot (sink : V → V) (tree : Tree V) (change : V → V) : Tree V :=
  let changed : Tree V :=
    ⟨.mk (change tree.node.value) tree.node.children,
      .mk tree.ordered.increasing tree.ordered.children⟩
  if tree.node.children.isEmpty then changed else normalize sink changed

/-- Changes every stored value. -/
def transform (sink : V → V) (tree : Tree V) (change : V → V) : Tree V :=
  normalize sink
    ⟨tree.node.mapValues change, Node.Ordered.mapValues change tree.node tree.ordered⟩

/-! ## Collapses -/

/-- The root value joined with every marked value below it. -/
def collapse (tree : Tree V) (mark : V → V) : V :=
  tree.node.collapse mark

/-- Moves every marked value into the root. -/
def flatten (tree : Tree V) (mark : V → V) : Tree V :=
  leaf (Node.absorbAll mark tree.node.value tree.node.children)

/-- Collapses everything deeper than a height. -/
def collapseDeeperThan (sink : V → V) (tree : Tree V) (height : Nat) (mark : V → V) : Tree V :=
  ⟨tree.node.collapseDeeperThan sink height mark,
    tree.ordered.collapseDeeperThan sink height mark⟩

/-- Collapses everything deeper than a height with a hook of a policy. If the hook has no mark, a
tree with nothing to move is left to its normal form, and any other is refused. -/
def collapseWith {ε : Type} (sink : V → V) (tree : Tree V) (height : Nat) (hook : Hook ε V) :
    Except ε (Tree V) :=
  match hook with
  | .ok mark => .ok (tree.collapseDeeperThan sink height mark)
  | .error reason =>
      if tree.node.reachesBelow height then
        .error reason
      else
        .ok (tree.collapseDeeperThan sink height id)

/-! ## The order -/

def leq (sink : V → V) (left right : Tree V) : Bool :=
  left.node.leq sink right.node

/-- Merges two trees path by path. -/
def merge (sink : V → V) (op : MergeOp) (left right : Tree V) : Tree V :=
  ⟨left.node.merge sink op .nothing right.node,
    Node.Ordered.merge sink op .nothing left.node right.node left.ordered right.ordered⟩

def join (sink : V → V) (left right : Tree V) : Tree V :=
  left.merge sink .join right

def meet (sink : V → V) (left right : Tree V) : Tree V :=
  left.merge sink .meet right

def narrow (sink : V → V) (left right : Tree V) : Tree V :=
  left.merge sink .narrow right

/-- Widens path by path, and then collapses what is higher than the policy allows. -/
def widen {ε : Type} (policy : Policy ε V) (left right : Tree V) : Except ε (Tree V) :=
  let widened := left.merge policy.sink .widen right
  match policy.maxHeight with
  | none => .ok widened
  | some height =>
      if height < widened.height then
        widened.collapseWith policy.sink height policy.onWidening
      else
        .ok widened

end Operations

/-! ## Text -/

/-- Every stored node under its path. -/
instance [Inspect V] : Inspect (Tree V) where
  inspect tree :=
    Text.mapping (tree.nodes.map fun stored => (inspect (render stored.1), inspect stored.2))

end Tree

namespace Node

mutual

/-- The stored value of a node, followed by its children in braces. -/
def renderNode {V : Type} [Render V] : Node V → String
  | .mk value children => "\x7b" ++ render value ++ renderChildren children ++ "\x7d"

def renderChildren {V : Type} [Render V] : List (PathElement × Node V) → String
  | [] => ""
  | (label, node) :: rest =>
      ", " ++ render label ++ " -> " ++ renderNode node ++ renderChildren rest

end

end Node

instance {V : Type} [Render V] : Render (Tree V) where
  render tree := tree.node.renderNode

end AliasTaint
