import AliasTaint.Tree.Node

/-!
# Merging trees

The value that a tree shows at a path is the value stored there, joined with what the ancestors sink
into it. Two trees are merged path by path, so that the result shows the join, the widening, the meet
or the narrowing of what the two trees show. A value that the ancestors in the result already sink
into a node is not stored again, and nodes that store nothing are left out: that is the normal form.
-/

namespace AliasTaint

/-- The operations that merge two trees path by path. -/
inductive MergeOp where
  | join
  | widen
  | meet
  | narrow
  /-- Joins with nothing, in order to restore the normal form everywhere. -/
  | normalize
  deriving DecidableEq

/-- What the ancestors sink into a node: in the left tree, in the right tree and in the result. -/
structure Inherited (V : Type) where
  left : V
  right : V
  result : V

/-- What becomes of a label under which at least one of two nodes has a child. -/
inductive Branch where
  | drop
  | keepLeft
  | keepRight
  | merge
  deriving DecidableEq

section

variable {V : Type} [Domain V]

/-- What a node passes on to its children: its own value joined to what it inherits, sunk by one
level. Nothing sinks to nothing. -/
def sinkIntoChild (sink : V → V) (ancestors value : V) : V :=
  if Domain.isBottom ancestors && Domain.isBottom value then
    Domain.bottom
  else
    sink (Domain.join ancestors value)

/-- Nothing is inherited. -/
def Inherited.nothing : Inherited V where
  left := Domain.bottom
  right := Domain.bottom
  result := Domain.bottom

/-- Only the result inherits something. -/
def Inherited.inResult (result : V) : Inherited V where
  left := Domain.bottom
  right := Domain.bottom
  result := result

namespace MergeOp

/-- The result covers both sides. -/
def isUpper : MergeOp → Bool
  | .join | .widen | .normalize => true
  | .meet | .narrow => false

/-- Both sides are known to be in normal form. -/
def trustsSides : MergeOp → Bool
  | .join | .widen => true
  | .meet | .narrow | .normalize => false

/-- The combination of two values. Bounds from below combine the values that are shown. -/
def combine (op : MergeOp) (inherited : Inherited V) (left right : V) : V :=
  match op with
  | .join | .normalize => Domain.join left right
  | .widen => Domain.widen left right
  | .meet =>
      Domain.meet (Domain.join left inherited.left) (Domain.join right inherited.right)
  | .narrow =>
      Domain.narrow (Domain.join left inherited.left) (Domain.join right inherited.right)

/-- The value stored in the result: the combination, unless the ancestors already show it. -/
def store (op : MergeOp) (inherited : Inherited V) (left right : V) : V :=
  let combined := op.combine inherited left right
  if !Domain.isBottom combined && Domain.leq combined inherited.result then
    Domain.bottom
  else
    combined

/-- What the children of two merged nodes inherit. -/
def inherit (sink : V → V) (op : MergeOp) (inherited : Inherited V) (left right : V) :
    Inherited V where
  left :=
    if op.isUpper then Domain.bottom
    else sinkIntoChild sink Domain.bottom (Domain.join left inherited.left)
  right :=
    if op.isUpper then Domain.bottom
    else sinkIntoChild sink Domain.bottom (Domain.join right inherited.right)
  result := sinkIntoChild sink inherited.result (op.store inherited left right)

/-- Where nothing is inherited, a child on one side only is kept as it is. In a bound from below, a
label is dropped where one side shows nothing. Otherwise the two children are merged. -/
def branch (op : MergeOp) (inherited : Inherited V) (left right : Node V) : Branch :=
  if op.trustsSides && Domain.isBottom inherited.result && right.isBottom then
    .keepLeft
  else if op.trustsSides && Domain.isBottom inherited.result && left.isBottom then
    .keepRight
  else if !op.isUpper &&
      (left.isBottom && Domain.isBottom inherited.left ||
        right.isBottom && Domain.isBottom inherited.right) then
    .drop
  else
    .merge

end MergeOp

namespace Node

/-- Puts a child in front of its siblings, if there is one. -/
def prepend (label : PathElement) (child : Option (Node V))
    (siblings : List (PathElement × Node V)) : List (PathElement × Node V) :=
  match child with
  | none => siblings
  | some node => (label, node) :: siblings

/-! ## The merge -/

mutual

/-- Merges nothing on the left with a node on the right. -/
def mergeRight (sink : V → V) (op : MergeOp) (inherited : Inherited V) : Node V → Node V
  | .mk value children =>
      .mk (op.store inherited Domain.bottom value)
        (mergeRightChildren sink op (op.inherit sink inherited Domain.bottom value) children)

def mergeRightChildren (sink : V → V) (op : MergeOp) (inherited : Inherited V) :
    List (PathElement × Node V) → List (PathElement × Node V)
  | [] => []
  | (label, right) :: rest =>
      prepend label
        (match op.branch inherited bottom right with
          | .drop => none
          | .keepLeft => some bottom
          | .keepRight => some right
          | .merge => (mergeRight sink op inherited right).nonBottom?)
        (mergeRightChildren sink op inherited rest)

end

mutual

/-- Merges two nodes and everything below them. -/
def merge (sink : V → V) (op : MergeOp) (inherited : Inherited V) : Node V → Node V → Node V
  | .mk value children, right =>
      .mk (op.store inherited value right.value)
        (Entries.weave
          (mergeLeftChildren sink op (op.inherit sink inherited value right.value) right children)
          (mergeRightChildren sink op (op.inherit sink inherited value right.value)
            (Entries.unboundIn children right.children)))

/-- Merges the children of a left node with those of a right node that have the same labels. -/
def mergeLeftChildren (sink : V → V) (op : MergeOp) (inherited : Inherited V) (parent : Node V) :
    List (PathElement × Node V) → List (PathElement × Node V)
  | [] => []
  | (label, left) :: rest =>
      prepend label
        (match op.branch inherited left (parent.childOrBottom label) with
          | .drop => none
          | .keepLeft => some left
          | .keepRight => some (parent.childOrBottom label)
          | .merge => (merge sink op inherited left (parent.childOrBottom label)).nonBottom?)
        (mergeLeftChildren sink op inherited parent rest)

end

/-- Restores the normal form. -/
def normalize (sink : V → V) (node : Node V) : Node V :=
  merge sink .normalize .nothing node bottom

/-! ## What becomes of each label -/

/-- The child of the result under a label, given the children of both sides. -/
def mergedChild? (sink : V → V) (op : MergeOp) (inherited : Inherited V) (left right : Node V) :
    Option (Node V) :=
  match op.branch inherited left right with
  | .drop => none
  | .keepLeft => some left
  | .keepRight => some right
  | .merge => (merge sink op inherited left right).nonBottom?

/-- A missing left side is a node that stores nothing. -/
theorem mergeRight_eq_merge_bottom
    (sink : V → V) (op : MergeOp) (inherited : Inherited V) (right : Node V) :
    mergeRight sink op inherited right = merge sink op inherited bottom right := by
  cases right with
  | mk value children =>
      have kept : Entries.unboundIn ([] : List (PathElement × Node V)) children = children :=
        List.filter_eq_self.mpr fun _ _ => rfl
      have woven (entries : List (PathElement × Node V)) : Entries.weave [] entries = entries := by
        simp [Entries.weave]
      simp only [mergeRight, bottom, leaf, merge, Node.value, Node.children, kept,
        mergeLeftChildren, woven]

omit [Domain V] in
theorem prepend_eq
    (label : PathElement) (child : Option (Node V)) (siblings : List (PathElement × Node V)) :
    prepend label child siblings =
      (child.map fun node => (label, node)).toList ++ siblings := by
  cases child <;> rfl

theorem mergeRightChildren_eq_filterMapValues
    (sink : V → V) (op : MergeOp) (inherited : Inherited V)
    (children : List (PathElement × Node V)) :
    mergeRightChildren sink op inherited children =
      Entries.filterMapValues
        (fun _ right => mergedChild? sink op inherited bottom right) children := by
  induction children with
  | nil => rfl
  | cons entry rest inductionHypothesis =>
      obtain ⟨label, right⟩ := entry
      simp only [mergeRightChildren, inductionHypothesis, prepend_eq, mergedChild?,
        mergeRight_eq_merge_bottom, Entries.filterMapValues, List.filterMap_cons]
      cases op.branch inherited bottom right <;> simp
      cases (merge sink op inherited bottom right).nonBottom? <;> simp

theorem mergeLeftChildren_eq_filterMapValues
    (sink : V → V) (op : MergeOp) (inherited : Inherited V) (parent : Node V)
    (children : List (PathElement × Node V)) :
    mergeLeftChildren sink op inherited parent children =
      Entries.filterMapValues
        (fun label left =>
          mergedChild? sink op inherited left (parent.childOrBottom label)) children := by
  induction children with
  | nil => rfl
  | cons entry rest inductionHypothesis =>
      obtain ⟨label, left⟩ := entry
      simp only [mergeLeftChildren, inductionHypothesis, prepend_eq, mergedChild?,
        Entries.filterMapValues, List.filterMap_cons]
      cases op.branch inherited left (parent.childOrBottom label) <;> simp
      cases (merge sink op inherited left (parent.childOrBottom label)).nonBottom? <;> simp

/-! ## Ordered results -/

theorem eq_of_nonBottom? {node kept : Node V} (isKept : node.nonBottom? = some kept) :
    kept = node := by
  unfold nonBottom? at isKept
  split at isKept
  · exact nomatch isKept
  · exact (Option.some.inj isKept).symm

theorem ordered_mergedChild?
    {sink : V → V} {op : MergeOp} {inherited : Inherited V} {left right merged : Node V}
    (leftOrdered : left.Ordered)
    (rightOrdered : right.Ordered)
    (mergeOrdered : (merge sink op inherited left right).Ordered)
    (found : mergedChild? sink op inherited left right = some merged) :
    merged.Ordered := by
  unfold mergedChild? at found
  split at found
  · exact nomatch found
  · exact Option.some.inj found ▸ leftOrdered
  · exact Option.some.inj found ▸ rightOrdered
  · exact eq_of_nonBottom? found ▸ mergeOrdered

omit [Domain V] in
/-- Woven children are ordered if each of them is. -/
private theorem ordered_woven
    {value : V} {leftChildren rightChildren : List (PathElement × Node V)}
    {changeLeft changeRight : PathElement → Node V → Option (Node V)}
    (leftIncreasing : Entries.Increasing leftChildren)
    (rightIncreasing : Entries.Increasing rightChildren)
    (leftOrdered : ∀ entry ∈ leftChildren, ∀ merged,
      changeLeft entry.1 entry.2 = some merged → merged.Ordered)
    (rightOrdered : ∀ entry ∈ rightChildren, ∀ merged,
      changeRight entry.1 entry.2 = some merged → merged.Ordered) :
    (Node.mk value
      (Entries.weave
        (Entries.filterMapValues changeLeft leftChildren)
        (Entries.filterMapValues changeRight
          (Entries.unboundIn leftChildren rightChildren)))).Ordered := by
  refine .mk ?_ ?_
  · refine Entries.Increasing.weave
      (leftIncreasing.filterMapValues _)
      ((rightIncreasing.filter _).filterMapValues _) ?_
    intro first firstMember second secondMember
    obtain ⟨leftSource, leftMember, leftLabel, _⟩ := Entries.mem_of_mem_filterMapValues firstMember
    obtain ⟨rightSource, rightMember, rightLabel, _⟩ := Entries.mem_of_mem_filterMapValues secondMember
    rw [← leftLabel, ← rightLabel]
    exact Entries.unbound_ne rightMember leftMember
  · intro entry member
    rcases Entries.mem_weave.mp member with inLeft | inRight
    · obtain ⟨source, sourceMember, _, found⟩ := Entries.mem_of_mem_filterMapValues inLeft
      exact leftOrdered source sourceMember entry.2 found
    · obtain ⟨source, sourceMember, _, found⟩ := Entries.mem_of_mem_filterMapValues inRight
      exact rightOrdered source (List.mem_filter.mp sourceMember).1 entry.2 found

theorem ordered_merge_bottom
    (sink : V → V) (op : MergeOp) (inherited : Inherited V) (right : Node V) :
    right.Ordered → (merge sink op inherited bottom right).Ordered := by
  induction right using Node.induction generalizing inherited with
  | step value children inductionHypothesis =>
      intro ordered
      simp only [bottom, leaf, merge, mergeLeftChildren_eq_filterMapValues,
        mergeRightChildren_eq_filterMapValues]
      refine ordered_woven Entries.increasing_nil ordered.increasing nofun ?_
      intro entry member merged found
      have entryOrdered := ordered.children entry member
      exact ordered_mergedChild? ordered_bottom entryOrdered
        (inductionHypothesis entry member _ entryOrdered) found

theorem Ordered.merge
    (sink : V → V) (op : MergeOp) (inherited : Inherited V) (left right : Node V) :
    left.Ordered → right.Ordered → (merge sink op inherited left right).Ordered := by
  induction left using Node.induction generalizing inherited right with
  | step value children inductionHypothesis =>
      intro leftOrdered rightOrdered
      simp only [Node.merge, mergeLeftChildren_eq_filterMapValues,
        mergeRightChildren_eq_filterMapValues]
      refine ordered_woven leftOrdered.increasing rightOrdered.increasing ?_ ?_
      · intro entry member merged found
        have entryOrdered := leftOrdered.children entry member
        have otherOrdered := rightOrdered.childOrBottom entry.1
        exact ordered_mergedChild? entryOrdered otherOrdered
          (inductionHypothesis entry member _ _ entryOrdered otherOrdered) found
      · intro entry member merged found
        have entryOrdered := rightOrdered.children entry member
        exact ordered_mergedChild? ordered_bottom entryOrdered
          (ordered_merge_bottom sink op _ entry.2 entryOrdered) found

theorem Ordered.normalize (sink : V → V) {node : Node V} (ordered : node.Ordered) :
    (node.normalize sink).Ordered :=
  Ordered.merge sink .normalize .nothing node bottom ordered ordered_bottom

end Node

end

end AliasTaint
