import AliasTaint.Proofs.Refusal.Interface
import AliasTaint.Proofs.Tree.Order

/-!
# Trees over an interface

Merges, reads, writes, comparisons and collapses of trees ask the domain of the stored values at every
node.  None of them asks for an extreme of that domain.  A hook of the policy is called only by
widening, and only where the policy bounds the height.
-/

namespace AliasTaint

variable {V : Type}

/-!
## Putting children in order

A tree carries a proof that its children are in order.  What requests give is a bare node, about which
nothing is known before it is compared with the library's, so a tree is made of it by sorting.
-/

namespace Node

mutual

/-- The node with all children put at their places, one after the other. -/
def sorted : Node V → Node V
  | .mk value children => .mk value (sortedChildren children)

def sortedChildren : List (PathElement × Node V) → List (PathElement × Node V)
  | [] => []
  | (label, node) :: rest => Entries.insert label node.sorted (sortedChildren rest)

end

theorem ordered_sorted (node : Node V) : node.sorted.Ordered := by
  induction node using Node.induction with
  | step value children inductionHypothesis =>
      have inOrder : Entries.Increasing (sortedChildren children) ∧
          ∀ entry ∈ sortedChildren children, entry.2.Ordered := by
        induction children with
        | nil =>
            exact ⟨Entries.increasing_nil, nofun⟩
        | cons entry rest restInOrder =>
            obtain ⟨label, child⟩ := entry
            obtain ⟨childOrdered, restOrdered⟩ := List.forall_mem_cons.mp inductionHypothesis
            obtain ⟨increasing, ordered⟩ := restInOrder restOrdered
            refine ⟨increasing.insert label child.sorted, fun found member => ?_⟩
            rcases Entries.eq_or_mem_of_mem_insert member with rfl | isOld
            · exact childOrdered
            · exact ordered found isOld
      exact .mk inOrder.1 inOrder.2

theorem sorted_eq_self (node : Node V) : node.Ordered → node.sorted = node := by
  induction node using Node.induction with
  | step value children inductionHypothesis =>
      intro ordered
      refine congrArg (Node.mk value) ?_
      have increasing : Entries.Increasing children := ordered.increasing
      have inside : ∀ entry ∈ children, entry.2.sorted = entry.2 := fun entry member =>
        inductionHypothesis entry member (ordered.children entry member)
      clear inductionHypothesis ordered
      induction children with
      | nil =>
          rfl
      | cons entry rest restSorted =>
          obtain ⟨label, child⟩ := entry
          obtain ⟨smaller, restIncreasing⟩ := List.pairwise_cons.mp increasing
          obtain ⟨childSorted, restInside⟩ := List.forall_mem_cons.mp inside
          rw [sortedChildren, childSorted, restSorted restIncreasing restInside]
          cases rest with
          | nil =>
              rfl
          | cons next later =>
              have first : compare label next.1 = .lt := smaller next List.mem_cons_self
              rw [Entries.insert, first]

end Node

/-- The tree with the nodes of a node, wherever its children stand. -/
def Tree.ofNode (node : Node V) : Tree V :=
  ⟨node.sorted, node.ordered_sorted⟩

theorem Tree.ofNode_eq {node : Node V} (ordered : node.Ordered) : Tree.ofNode node = ⟨node, ordered⟩ :=
  Tree.ext_node (Node.sorted_eq_self node ordered)

theorem Tree.ofNode_answer {result : Except Fault (Node V)} {node : Node V}
    (answered : result = pure node) (ordered : node.Ordered) :
    Tree.ofNode <$> result = pure ⟨node, ordered⟩ := by
  rw [answered, map_pure, Tree.ofNode_eq ordered]

/-! ## Merges -/

section Requests

variable (calls : Interface V) (sink : V → V)

def sinkIntoChildVia (ancestors value : V) : Except Fault V := do
  if (← calls.isBottom ancestors) && (← calls.isBottom value) then calls.bottom
  else pure (sink (← calls.join ancestors value))

def Inherited.nothingVia : Except Fault (Inherited V) := do
  let bottom ← calls.bottom
  pure ⟨bottom, bottom, bottom⟩

def Inherited.inResultVia (result : V) : Except Fault (Inherited V) := do
  let bottom ← calls.bottom
  pure ⟨bottom, bottom, result⟩

namespace Node

def bottomVia : Except Fault (Node V) := do
  pure (leaf (← calls.bottom))

def isBottomVia (node : Node V) : Except Fault Bool := do
  pure ((← calls.isBottom node.value) && node.children.isEmpty)

def nonBottomVia (node : Node V) : Except Fault (Option (Node V)) := do
  if ← node.isBottomVia calls then pure none else pure (some node)

def childOrBottomVia (node : Node V) (label : PathElement) : Except Fault (Node V) :=
  match node.child? label with
  | some child => pure child
  | none => bottomVia calls

end Node

namespace MergeOp

def combineVia (op : MergeOp) (inherited : Inherited V) (left right : V) : Except Fault V :=
  match op with
  | .join | .normalize => calls.join left right
  | .widen => calls.widen left right
  | .meet => do
      calls.meet (← calls.join left inherited.left) (← calls.join right inherited.right)
  | .narrow => do
      calls.narrow (← calls.join left inherited.left) (← calls.join right inherited.right)

def storeVia (op : MergeOp) (inherited : Inherited V) (left right : V) : Except Fault V := do
  let combined ← op.combineVia calls inherited left right
  if !(← calls.isBottom combined) && (← calls.leq combined inherited.result) then calls.bottom
  else pure combined

/-- What the children on one side inherit; a bound from above does not ask. -/
def sideVia (op : MergeOp) (value inherited : V) : Except Fault V := do
  if op.isUpper then calls.bottom
  else sinkIntoChildVia calls sink (← calls.bottom) (← calls.join value inherited)

def inheritVia (op : MergeOp) (inherited : Inherited V) (left right : V) :
    Except Fault (Inherited V) := do
  let stored ← op.storeVia calls inherited left right
  pure
    { left := ← op.sideVia calls sink left inherited.left
      right := ← op.sideVia calls sink right inherited.right
      result := ← sinkIntoChildVia calls sink inherited.result stored }

def branchVia (op : MergeOp) (inherited : Inherited V) (left right : Node V) :
    Except Fault Branch := do
  let leftEmpty ← left.isBottomVia calls
  let rightEmpty ← right.isBottomVia calls
  let resultEmpty ← calls.isBottom inherited.result
  if op.trustsSides && resultEmpty && rightEmpty then pure .keepLeft
  else if op.trustsSides && resultEmpty && leftEmpty then pure .keepRight
  else if !op.isUpper && (leftEmpty && (← calls.isBottom inherited.left) ||
      rightEmpty && (← calls.isBottom inherited.right)) then pure .drop
  else pure .merge

end MergeOp

/-- The child that a branch leads to, given how the two children are merged. -/
def Branch.childVia (branch : Branch) (left right : Node V) (merged : Except Fault (Option (Node V))) :
    Except Fault (Option (Node V)) :=
  match branch with
  | .drop => pure none
  | .keepLeft => pure (some left)
  | .keepRight => pure (some right)
  | .merge => merged

namespace Node

mutual

def mergeRightVia (op : MergeOp) (inherited : Inherited V) : Node V → Except Fault (Node V)
  | .mk value children => do
      let bottom ← calls.bottom
      let stored ← op.storeVia calls inherited bottom value
      let below ← op.inheritVia calls sink inherited bottom value
      pure (.mk stored (← mergeRightChildrenVia op below children))

def mergeRightChildrenVia (op : MergeOp) (inherited : Inherited V) :
    List (PathElement × Node V) → Except Fault (List (PathElement × Node V))
  | [] => pure []
  | (label, right) :: rest => do
      let left ← bottomVia calls
      let branch ← op.branchVia calls inherited left right
      let child ← branch.childVia left right
        (do nonBottomVia calls (← mergeRightVia op inherited right))
      pure (prepend label child (← mergeRightChildrenVia op inherited rest))

end

mutual

def mergeVia (op : MergeOp) (inherited : Inherited V) : Node V → Node V → Except Fault (Node V)
  | .mk value children, right => do
      let stored ← op.storeVia calls inherited value right.value
      let below ← op.inheritVia calls sink inherited value right.value
      let fromLeft ← mergeLeftChildrenVia op below right children
      let fromRight ← mergeRightChildrenVia calls sink op below
        (Entries.unboundIn children right.children)
      pure (.mk stored (Entries.weave fromLeft fromRight))

def mergeLeftChildrenVia (op : MergeOp) (inherited : Inherited V) (parent : Node V) :
    List (PathElement × Node V) → Except Fault (List (PathElement × Node V))
  | [] => pure []
  | (label, left) :: rest => do
      let right ← parent.childOrBottomVia calls label
      let branch ← op.branchVia calls inherited left right
      let child ← branch.childVia left right
        (do nonBottomVia calls (← mergeVia op inherited left right))
      pure (prepend label child (← mergeLeftChildrenVia op inherited parent rest))

end

def normalizeVia (node : Node V) : Except Fault (Node V) := do
  mergeVia calls sink .normalize (← Inherited.nothingVia calls) node (← bottomVia calls)

/-! ## Reads, writes and the order -/

def readUnderVia (inherited : V) : Path → Node V → Except Fault (Node V)
  | [], node => do
      if ← calls.isBottom inherited then pure node
      else normalizeVia calls sink (.mk (← calls.join node.value inherited) node.children)
  | label :: path, node => do
      let below ← sinkIntoChildVia calls sink inherited node.value
      match node.child? label with
      | none => pure (leaf below)
      | some child => readUnderVia below path child

def withChildVia (node : Node V) (label : PathElement) (child : Node V) : Except Fault (Node V) := do
  match ← child.nonBottomVia calls with
  | none => pure (.mk node.value (Entries.erase label node.children))
  | some kept => pure (.mk node.value (Entries.insert label kept node.children))

/-- What a graft is merged with: nothing if it replaces the node. -/
def currentVia (kind : UpdateKind) (node : Node V) : Except Fault (Node V) :=
  match kind with
  | .strong => bottomVia calls
  | .weak => pure node

def graftUnderVia (kind : UpdateKind) (tree : Node V) (inherited : V) :
    Path → Node V → Except Fault (Node V)
  | [], node => do
      mergeVia calls sink .join (← Inherited.inResultVia calls inherited)
        (← currentVia calls kind node) tree
  | label :: path, node => do
      let below ← sinkIntoChildVia calls sink inherited node.value
      let child ← graftUnderVia kind tree below path (← node.childOrBottomVia calls label)
      node.withChildVia calls label child

/-- Asks for what a tree shows at a node, which may be missing. -/
def shownVia (inherited : V) : Option (Node V) → Except Fault V
  | some node => calls.join inherited node.value
  | none => pure inherited

mutual

def leqUnderVia (inherited : V) : Node V → Option (Node V) → Except Fault Bool
  | .mk value children, right => do
      let shown ← shownVia calls inherited right
      let below ← sinkIntoChildVia calls sink (← calls.bottom) shown
      if ← calls.leq value shown then leqChildrenVia below right children else pure false

def leqChildrenVia (inherited : V) (right : Option (Node V)) :
    List (PathElement × Node V) → Except Fault Bool
  | [] => pure true
  | (label, left) :: rest => do
      if ← leqUnderVia inherited left (right.bind fun node => node.child? label) then
        leqChildrenVia inherited right rest
      else
        pure false

end

/-! ## Visits, changes and collapses -/

/-- Leaves out the paths where nothing is stored. -/
def filledVia : List (Path × V) → Except Fault (List (Path × V))
  | [] => pure []
  | stored :: rest => do
      if ← calls.isBottom stored.2 then filledVia rest else pure (stored :: (← filledVia rest))

mutual

def mapValuesVia (change : V → Except Fault V) : Node V → Except Fault (Node V)
  | .mk value children => do pure (.mk (← change value) (← mapValuesOfVia change children))

def mapValuesOfVia (change : V → Except Fault V) :
    List (PathElement × Node V) → Except Fault (List (PathElement × Node V))
  | [] => pure []
  | (label, node) :: rest => do
      pure ((label, ← mapValuesVia change node) :: (← mapValuesOfVia change rest))

end

def gatherVia (mark : V → Except Fault V) (gathered value : V) : Except Fault V := do
  if ← calls.isBottom value then pure gathered else calls.join gathered (← mark value)

mutual

def absorbVia (mark : V → Except Fault V) (gathered : V) : Node V → Except Fault V
  | .mk value children => do absorbAllVia mark (← gatherVia calls mark gathered value) children

def absorbAllVia (mark : V → Except Fault V) (gathered : V) :
    List (PathElement × Node V) → Except Fault V
  | [] => pure gathered
  | (_, node) :: rest => do absorbVia mark (← absorbAllVia mark gathered rest) node

end

mutual

def flattenAtVia (mark : V → Except Fault V) : Node V → Nat → Except Fault (Node V)
  | .mk value children, 0 => do pure (leaf (← absorbAllVia calls mark value children))
  | .mk value children, depth + 1 => do
      pure (.mk value (← flattenAllAtVia mark children depth))

def flattenAllAtVia (mark : V → Except Fault V) :
    List (PathElement × Node V) → Nat → Except Fault (List (PathElement × Node V))
  | [], _ => pure []
  | (label, node) :: rest, depth => do
      pure ((label, ← flattenAtVia mark node depth) :: (← flattenAllAtVia mark rest depth))

end

end Node

/-! ## Trees -/

namespace Tree

def mergeVia (op : MergeOp) (left right : Tree V) : Except Fault (Tree V) := do
  ofNode <$> Node.mergeVia calls sink op (← Inherited.nothingVia calls) left.node right.node

def leqVia (left right : Tree V) : Except Fault Bool := do
  Node.leqUnderVia calls sink (← calls.bottom) left.node (some right.node)

def readVia (tree : Tree V) (path : Path) : Except Fault (Tree V) := do
  ofNode <$> Node.readUnderVia calls sink (← calls.bottom) path tree.node

def rawReadVia (tree : Tree V) (path : Path) : Except Fault (Tree V) :=
  match tree.node.descend? path with
  | some node => pure (ofNode node)
  | none => ofNode <$> Node.bottomVia calls

def writeTreeVia (tree : Tree V) (path : Path) (grafted : Tree V) (kind : UpdateKind) :
    Except Fault (Tree V) := do
  ofNode <$> Node.graftUnderVia calls sink kind grafted.node (← calls.bottom) path tree.node

def visitVia (tree : Tree V) : Except Fault (List (Path × V)) :=
  Node.filledVia calls tree.node.nodes

def updateRootVia (tree : Tree V) (change : V → Except Fault V) : Except Fault (Tree V) := do
  let changed : Node V := .mk (← change tree.node.value) tree.node.children
  if tree.node.children.isEmpty then pure (ofNode changed)
  else ofNode <$> changed.normalizeVia calls sink

def transformVia (tree : Tree V) (change : V → Except Fault V) : Except Fault (Tree V) := do
  ofNode <$> (← tree.node.mapValuesVia change).normalizeVia calls sink

/-- Collapses everything deeper than a height; the hook is called on every value that is moved. -/
def collapseWithVia (tree : Tree V) (height : Nat) (hook : V → Except Fault V) :
    Except Fault (Tree V) := do
  ofNode <$> (← Node.flattenAtVia calls hook tree.node height).normalizeVia calls sink

def widenVia (maxHeight : Option Nat) (hook : V → Except Fault V) (left right : Tree V) :
    Except Fault (Tree V) := do
  let widened ← mergeVia calls sink .widen left right
  match maxHeight with
  | none => pure widened
  | some height =>
      if height < widened.height then widened.collapseWithVia calls sink height hook
      else pure widened

/-- Trees ask the domain of their values; the greatest tree stores the greatest value at its root. -/
def interface (maxHeight : Option Nat) (hook : V → Except Fault V) : Interface (Tree V) where
  top := leaf <$> calls.top
  setToBottom _ := ofNode <$> Node.bottomVia calls
  setToTop _ := leaf <$> calls.top
  bottom := ofNode <$> Node.bottomVia calls
  isBottom tree := tree.node.isBottomVia calls
  isTop tree := do pure ((← calls.isTop tree.node.value) && tree.node.children.isEmpty)
  leq := leqVia calls sink
  join := mergeVia calls sink .join
  widen := widenVia calls sink maxHeight hook
  meet := mergeVia calls sink .meet
  narrow := mergeVia calls sink .narrow

end Tree

end Requests

/-! ## What is asked is answered -/

namespace Node

mutual

theorem mapValuesVia_pure (change : V → V) :
    ∀ node : Node V, node.mapValuesVia (fun value => pure (change value)) =
      pure (node.mapValues change)
  | .mk value children => by
      simp only [mapValuesVia, mapValuesOfVia_pure change children, pure_bind, mapValues]

theorem mapValuesOfVia_pure (change : V → V) :
    ∀ children : List (PathElement × Node V),
      mapValuesOfVia (fun value => pure (change value)) children =
        pure (mapValuesOf change children)
  | [] => rfl
  | (label, node) :: rest => by
      simp only [mapValuesOfVia, mapValuesVia_pure change node, mapValuesOfVia_pure change rest,
        pure_bind, mapValuesOf]

end

end Node

section Answers

variable [Domain V] (extremes : Extremes V) (sink : V → V)

theorem sinkIntoChildVia_answering (ancestors value : V) :
    sinkIntoChildVia (.answering extremes) sink ancestors value =
      pure (sinkIntoChild sink ancestors value) := by
  simp only [sinkIntoChildVia, Interface.answering_isBottom, Interface.answering_bottom,
    Interface.answering_join, pure_bind, Interface.ite_pure, sinkIntoChild]

theorem Node.isBottomVia_answering (node : Node V) :
    node.isBottomVia (.answering extremes) = pure node.isBottom :=
  rfl

namespace MergeOp

variable (op : MergeOp) (inherited : Inherited V)

theorem combineVia_answering (left right : V) :
    op.combineVia (.answering extremes) inherited left right =
      pure (op.combine inherited left right) := by
  cases op <;> rfl

theorem storeVia_answering (left right : V) :
    op.storeVia (.answering extremes) inherited left right =
      pure (op.store inherited left right) := by
  simp only [storeVia, combineVia_answering, Interface.answering_isBottom, Interface.answering_leq,
    Interface.answering_bottom, pure_bind, Interface.ite_pure, store]

theorem sideVia_answering (value ancestors : V) :
    op.sideVia (.answering extremes) sink value ancestors =
      pure (if op.isUpper then Domain.bottom
        else sinkIntoChild sink Domain.bottom (Domain.join value ancestors)) := by
  simp only [sideVia, Interface.answering_bottom, Interface.answering_join, pure_bind,
    sinkIntoChildVia_answering, Interface.ite_pure]

theorem inheritVia_answering (left right : V) :
    op.inheritVia (.answering extremes) sink inherited left right =
      pure (op.inherit sink inherited left right) := by
  simp only [inheritVia, storeVia_answering, sideVia_answering, sinkIntoChildVia_answering, pure_bind,
    inherit]

theorem branchVia_answering (left right : Node V) :
    op.branchVia (.answering extremes) inherited left right =
      pure (op.branch inherited left right) := by
  simp only [branchVia, Node.isBottomVia_answering, Interface.answering_isBottom, pure_bind,
    Interface.ite_pure, branch]

end MergeOp

namespace Node

theorem bottomVia_answering : bottomVia (.answering extremes) = pure (bottom : Node V) :=
  rfl

theorem nonBottomVia_answering (node : Node V) :
    node.nonBottomVia (.answering extremes) = pure node.nonBottom? := by
  simp only [nonBottomVia, isBottomVia_answering, pure_bind, Interface.ite_pure, nonBottom?]

theorem childOrBottomVia_answering (node : Node V) (label : PathElement) :
    node.childOrBottomVia (.answering extremes) label = pure (node.childOrBottom label) := by
  unfold childOrBottomVia childOrBottom
  cases node.child? label <;> rfl

/-- The child that a branch leads to, once the two children are merged. -/
def branchChild (branch : Branch) (left right : Node V) (merged : Option (Node V)) : Option (Node V) :=
  match branch with
  | .drop => none
  | .keepLeft => some left
  | .keepRight => some right
  | .merge => merged

omit [Domain V] in
theorem childVia_pure (branch : Branch) (left right : Node V) (merged : Option (Node V)) :
    branch.childVia left right (pure merged) = pure (branchChild branch left right merged) := by
  cases branch <;> rfl

variable (op : MergeOp)

mutual

theorem mergeRightVia_answering (inherited : Inherited V) :
    ∀ right, mergeRightVia (.answering extremes) sink op inherited right =
      pure (mergeRight sink op inherited right)
  | .mk value children => by
      simp only [mergeRightVia, Interface.answering_bottom, MergeOp.storeVia_answering,
        MergeOp.inheritVia_answering, mergeRightChildrenVia_answering _ children, pure_bind, mergeRight]

theorem mergeRightChildrenVia_answering (inherited : Inherited V) :
    ∀ children, mergeRightChildrenVia (.answering extremes) sink op inherited children =
      pure (mergeRightChildren sink op inherited children)
  | [] => rfl
  | (label, right) :: rest => by
      simp only [mergeRightChildrenVia, bottomVia_answering, MergeOp.branchVia_answering,
        mergeRightVia_answering inherited right, nonBottomVia_answering, childVia_pure,
        mergeRightChildrenVia_answering inherited rest, pure_bind, mergeRightChildren]
      rfl

end

mutual

theorem mergeVia_answering (inherited : Inherited V) :
    ∀ left right, mergeVia (.answering extremes) sink op inherited left right =
      pure (merge sink op inherited left right)
  | .mk value children, right => by
      simp only [mergeVia, MergeOp.storeVia_answering, MergeOp.inheritVia_answering,
        mergeLeftChildrenVia_answering _ right children, mergeRightChildrenVia_answering, pure_bind,
        merge]

theorem mergeLeftChildrenVia_answering (inherited : Inherited V) (parent : Node V) :
    ∀ children, mergeLeftChildrenVia (.answering extremes) sink op inherited parent children =
      pure (mergeLeftChildren sink op inherited parent children)
  | [] => rfl
  | (label, left) :: rest => by
      simp only [mergeLeftChildrenVia, childOrBottomVia_answering, MergeOp.branchVia_answering,
        mergeVia_answering inherited left, nonBottomVia_answering, childVia_pure,
        mergeLeftChildrenVia_answering inherited parent rest, pure_bind, mergeLeftChildren]
      rfl

end

theorem normalizeVia_answering (node : Node V) :
    node.normalizeVia (.answering extremes) sink = pure (node.normalize sink) :=
  mergeVia_answering extremes sink .normalize .nothing node bottom

theorem readUnderVia_answering (inherited : V) (path : Path) (node : Node V) :
    readUnderVia (.answering extremes) sink inherited path node =
      pure (readUnder sink inherited path node) := by
  induction path generalizing inherited node with
  | nil =>
      simp only [readUnderVia, Interface.answering_isBottom, Interface.answering_join, pure_bind,
        normalizeVia_answering, Interface.ite_pure, readUnder]
  | cons label path inductionHypothesis =>
      simp only [readUnderVia, sinkIntoChildVia_answering, pure_bind, readUnder]
      cases node.child? label with
      | none =>
          rfl
      | some child =>
          exact inductionHypothesis _ child

theorem withChildVia_answering (node : Node V) (label : PathElement) (child : Node V) :
    node.withChildVia (.answering extremes) label child = pure (node.withChild label child) := by
  simp only [withChildVia, nonBottomVia_answering, pure_bind, withChild]
  cases child.nonBottom? <;> rfl

theorem graftUnderVia_answering (kind : UpdateKind) (tree : Node V) (inherited : V) (path : Path)
    (node : Node V) :
    graftUnderVia (.answering extremes) sink kind tree inherited path node =
      pure (graftUnder sink kind tree inherited path node) := by
  induction path generalizing inherited node with
  | nil =>
      cases kind <;> exact mergeVia_answering extremes sink .join (.inResult inherited) _ tree
  | cons label path inductionHypothesis =>
      simp only [graftUnderVia, sinkIntoChildVia_answering, childOrBottomVia_answering, pure_bind,
        inductionHypothesis, withChildVia_answering, graftUnder]

theorem shownVia_answering (inherited : V) (right : Option (Node V)) :
    shownVia (.answering extremes) inherited right = pure (shownAt inherited right) := by
  cases right <;> rfl

mutual

theorem leqUnderVia_answering (inherited : V) :
    ∀ left right, leqUnderVia (.answering extremes) sink inherited left right =
      pure (leqUnder sink inherited left right)
  | .mk value children, right => by
      simp only [leqUnderVia, shownVia_answering, Interface.answering_bottom,
        sinkIntoChildVia_answering, Interface.answering_leq, pure_bind,
        leqChildrenVia_answering _ right children, Interface.ite_pure, leqUnder_mk,
        Bool.if_false_right, Bool.decide_eq_true]

theorem leqChildrenVia_answering (inherited : V) (right : Option (Node V)) :
    ∀ children, leqChildrenVia (.answering extremes) sink inherited right children =
      pure (leqChildren sink inherited right children)
  | [] => rfl
  | (label, left) :: rest => by
      simp only [leqChildrenVia, leqUnderVia_answering inherited left, pure_bind,
        leqChildrenVia_answering inherited right rest, Interface.ite_pure, leqChildren,
        Bool.if_false_right, Bool.decide_eq_true]

end

theorem filledVia_answering (stored : List (Path × V)) :
    filledVia (.answering extremes) stored =
      pure (stored.filter fun entry => !Domain.isBottom entry.2) := by
  induction stored with
  | nil =>
      rfl
  | cons entry rest inductionHypothesis =>
      simp only [filledVia, Interface.answering_isBottom, pure_bind, inductionHypothesis,
        Interface.ite_pure, List.filter_cons]
      cases Domain.isBottom entry.2 <;> rfl

variable (mark : V → V)

theorem gatherVia_answering (gathered value : V) :
    gatherVia (.answering extremes) (fun moved => pure (mark moved)) gathered value =
      pure (gather mark gathered value) := by
  simp only [gatherVia, Interface.answering_isBottom, Interface.answering_join, pure_bind,
    Interface.ite_pure, gather]

mutual

theorem absorbVia_answering (gathered : V) :
    ∀ node, absorbVia (.answering extremes) (fun moved => pure (mark moved)) gathered node =
      pure (absorb mark gathered node)
  | .mk value children => by
      simp only [absorbVia, gatherVia_answering, pure_bind, absorbAllVia_answering _ children, absorb]

theorem absorbAllVia_answering (gathered : V) :
    ∀ children, absorbAllVia (.answering extremes) (fun moved => pure (mark moved)) gathered children =
      pure (absorbAll mark gathered children)
  | [] => rfl
  | (_, node) :: rest => by
      simp only [absorbAllVia, absorbAllVia_answering gathered rest, pure_bind,
        absorbVia_answering _ node, absorbAll]

end

mutual

theorem flattenAtVia_answering :
    ∀ node depth, flattenAtVia (.answering extremes) (fun moved => pure (mark moved)) node depth =
      pure (flattenAt mark node depth)
  | .mk value children, 0 => by
      simp only [flattenAtVia, absorbAllVia_answering, pure_bind, flattenAt, flatten]
  | .mk value children, depth + 1 => by
      simp only [flattenAtVia, flattenAllAtVia_answering children depth, pure_bind, flattenAt]

theorem flattenAllAtVia_answering :
    ∀ children depth,
      flattenAllAtVia (.answering extremes) (fun moved => pure (mark moved)) children depth =
        pure (flattenAllAt mark children depth)
  | [], _ => rfl
  | (label, node) :: rest, depth => by
      simp only [flattenAllAtVia, flattenAtVia_answering node depth,
        flattenAllAtVia_answering rest depth, pure_bind, flattenAllAt]

end

end Node

namespace Tree

theorem mergeVia_answering (op : MergeOp) (left right : Tree V) :
    mergeVia (.answering extremes) sink op left right = pure (left.merge sink op right) :=
  ofNode_answer (Node.mergeVia_answering extremes sink op .nothing left.node right.node)
    (Node.Ordered.merge sink op .nothing left.node right.node left.ordered right.ordered)

theorem leqVia_answering (left right : Tree V) :
    leqVia (.answering extremes) sink left right = pure (left.leq sink right) :=
  Node.leqUnderVia_answering extremes sink Domain.bottom left.node (some right.node)

theorem readVia_answering (tree : Tree V) (path : Path) :
    readVia (.answering extremes) sink tree path = pure (tree.read sink path) :=
  ofNode_answer (Node.readUnderVia_answering extremes sink Domain.bottom path tree.node)
    (tree.ordered.read sink path)

theorem rawReadVia_answering (tree : Tree V) (path : Path) :
    rawReadVia (.answering extremes) tree path = pure (tree.rawRead path) := by
  have same : tree.rawRead path = ofNode (tree.node.rawRead path) :=
    (ofNode_eq (tree.ordered.rawRead path)).symm
  rw [same, rawReadVia, Node.rawRead]
  cases tree.node.descend? path <;> rfl

theorem writeTreeVia_answering (tree : Tree V) (path : Path) (grafted : Tree V) (kind : UpdateKind) :
    writeTreeVia (.answering extremes) sink tree path grafted kind =
      pure (tree.writeTree sink path grafted kind) :=
  ofNode_answer
    (Node.graftUnderVia_answering extremes sink kind grafted.node Domain.bottom path tree.node)
    (Node.Ordered.graft sink tree.ordered grafted.ordered path kind)

theorem visitVia_answering (tree : Tree V) : visitVia (.answering extremes) tree = pure tree.visit :=
  Node.filledVia_answering extremes tree.node.nodes

theorem updateRootVia_answering (tree : Tree V) (change : V → V) :
    updateRootVia (.answering extremes) sink tree (fun value => pure (change value)) =
      pure (tree.updateRoot sink change) := by
  have ordered : (Node.mk (change tree.node.value) tree.node.children).Ordered :=
    .mk tree.ordered.increasing tree.ordered.children
  simp only [updateRootVia, pure_bind, updateRoot, ofNode_eq ordered,
    ofNode_answer (Node.normalizeVia_answering extremes sink _) (ordered.normalize sink),
    Interface.ite_pure]
  rfl

theorem transformVia_answering (tree : Tree V) (change : V → V) :
    transformVia (.answering extremes) sink tree (fun value => pure (change value)) =
      pure (tree.transform sink change) := by
  have ordered := Node.Ordered.mapValues change tree.node tree.ordered
  simp only [transformVia, Node.mapValuesVia_pure, pure_bind]
  exact ofNode_answer (Node.normalizeVia_answering extremes sink _) (ordered.normalize sink)

theorem collapseWithVia_answering (tree : Tree V) (height : Nat) (mark : V → V) :
    collapseWithVia (.answering extremes) sink tree height (fun moved => pure (mark moved)) =
      pure (tree.collapseDeeperThan sink height mark) := by
  rw [collapseWithVia, Node.flattenAtVia_answering, pure_bind]
  exact ofNode_answer (Node.normalizeVia_answering extremes sink _)
    (tree.ordered.collapseDeeperThan sink height mark)

/-- Widening of trees without a bound on their height calls no hook. -/
theorem widenVia_unbounded (hook : V → Except Fault V) (left right : Tree V) :
    widenVia (.answering extremes) sink none hook left right = pure (left.merge sink .widen right) := by
  rw [widenVia, mergeVia_answering, pure_bind]

/-- Widening with a hook that marks every value gives a tree. -/
theorem widenVia_marked {policy : Policy Empty V} {mark : V → V}
    (marked : policy.onWidening = .ok mark) (left right : Tree V) :
    widenVia (.answering extremes) policy.sink policy.maxHeight (fun moved => pure (mark moved)) left
        right =
      pure (Policy.certain (left.widen policy right)) := by
  rw [widenVia, mergeVia_answering, pure_bind, widen]
  cases policy.maxHeight with
  | none =>
      rfl
  | some height =>
      simp only [collapseWithVia_answering, Interface.ite_pure, marked, collapseWith]
      split <;> rfl

theorem bottomVia_answering :
    ofNode <$> Node.bottomVia (.answering extremes) = (pure bottom : Except Fault (Tree V)) :=
  ofNode_answer rfl bottom.ordered

end Tree

end Answers

end AliasTaint
