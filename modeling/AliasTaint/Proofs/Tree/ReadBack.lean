import AliasTaint.Proofs.Taint.Equality
import AliasTaint.Proofs.Tree.Fresh

/-!
# Reading back what was written

After a write, a read of its path covers the written tree.  This holds of any written tree, also where
it lists more positions than the heuristics allow: a value is dropped by the write only if the tree
above it covers it, and the read drops nothing more.  Nor does such a tree change anything at paths
that do not lead through the write, or remove what is inherited from above its path.

What is shown below the write is the join of what was there and what the written tree shows only if
that tree is well-formed.  The join of two sets is widened if it is beyond the limit, but a set beyond
the limit that covers another one is kept as it is.
-/

namespace AliasTaint

open Domain

variable {V : Type} [Domain V]

theorem SemilatticeOn.leq_bottom_eq_isBottom {Good : V → Prop} [SemilatticeOn Good] {value : V}
    (good : Good value) : leq value bottom = isBottom value := by
  rw [Bool.eq_iff_iff, SemilatticeOn.isBottom_iff good]
  refine ⟨SemilatticeOn.eq_bottom_of_leq good, ?_⟩
  rintro rfl
  exact SemilatticeOn.leq_refl good

namespace CumulativeDomain

variable [CumulativeDomain V]

theorem isBottom_eq_false {value : V} (filled : leq value bottom = false) :
    isBottom value = false := by
  rw [Bool.eq_false_iff] at filled ⊢
  intro nothing
  rw [isBottom_iff.mp nothing] at filled
  exact filled (leq_refl _)

theorem leq_bottom_eq_false_mono {lower upper : V} (covered : leq lower upper)
    (filled : leq lower bottom = false) : leq upper bottom = false := by
  rw [Bool.eq_false_iff] at filled ⊢
  exact mt (leq_trans covered) filled

end CumulativeDomain

namespace Node

/-! ## Where something is inherited -/

/-- Where something is inherited, a merge trusts neither side. -/
theorem child_of_merge_of_filled (sink : V → V) {op : MergeOp} {inherited : Inherited V}
    {left right child : Node V} (leftOrdered : left.Ordered) (rightOrdered : right.Ordered)
    {label : PathElement}
    (filled : Domain.isBottom (op.inherit sink inherited left.value right.value).result = false)
    (found : (merge sink op inherited left right).child? label = some child) :
    child.isBottom = false ∧
      child = merge sink op (op.inherit sink inherited left.value right.value)
        (left.childOrBottom label) (right.childOrBottom label) := by
  rw [child?_merge sink op inherited leftOrdered rightOrdered] at found
  split at found
  · have outcome := mergedChild_mergedChild? sink op
      (op.inherit sink inherited left.value right.value)
      (left.childOrBottom label) (right.childOrBottom label)
    rw [found] at outcome
    cases outcome with
    | keptLeft _ nothingInherited _ =>
        cases nothingInherited.symm.trans filled
    | keptRight _ nothingInherited _ =>
        cases nothingInherited.symm.trans filled
    | merged childFilled =>
        exact ⟨childFilled, rfl⟩
  · cases found

variable [CumulativeDomain V]

theorem filled_inherit {inherited : Inherited V}
    (filled : Domain.leq inherited.result Domain.bottom = false) (left right : Node V) :
    Domain.leq (MergeOp.join.inherit id inherited left.value right.value).result
      Domain.bottom = false := by
  rw [result_inherit, sinkIntoChild_id]
  exact CumulativeDomain.leq_bottom_eq_false_mono (CumulativeDomain.leq_join_left _ _) filled

/-- Where something is inherited, a join is normal whatever its sides are. -/
theorem normalUnder_join_of_filled {inherited : Inherited V}
    (filled : Domain.leq inherited.result Domain.bottom = false) {left right : Node V}
    (leftOrdered : left.Ordered) (rightOrdered : right.Ordered) :
    (merge id .join inherited left right).NormalUnder id inherited.result := by
  intro path
  induction path generalizing inherited left right with
  | nil =>
      intro below reached
      cases reached
      constructor
      · rw [value_merge]
        exact leq_store_eq_false CumulativeDomain.isBottom_bottom
      · intro label child found
        exact (child_of_merge_of_filled id leftOrdered rightOrdered
          (CumulativeDomain.isBottom_eq_false (filled_inherit filled left right)) found).1
  | cons label path inductionHypothesis =>
      intro below reached
      obtain ⟨child, found, rest⟩ := Option.bind_eq_some_iff.mp reached
      rw [sunkFrom, childOrBottom_of_child? found, ← result_inherit]
      have filledBelow := filled_inherit filled left right
      have isMerged := (child_of_merge_of_filled id leftOrdered rightOrdered
        (CumulativeDomain.isBottom_eq_false filledBelow) found).2
      subst isMerged
      exact inductionHypothesis filledBelow (leftOrdered.childOrBottom label)
        (rightOrdered.childOrBottom label) below rest

/-! ## What a join covers -/

theorem leq_join_store (inherited : Inherited V) (left right : V) :
    Domain.leq right (join inherited.result (MergeOp.join.store inherited left right)) := by
  have joined : Domain.leq right (join left right) := CumulativeDomain.leq_join_right left right
  by_cases dropped : (!Domain.isBottom (join left right) &&
      Domain.leq (join left right) inherited.result) = true
  · have isDropped : MergeOp.join.store inherited left right = Domain.bottom := if_pos dropped
    rw [isDropped, CumulativeDomain.join_bottom]
    exact CumulativeDomain.leq_trans joined (Bool.and_eq_true_iff.mp dropped).2
  · have isStored : MergeOp.join.store inherited left right = join left right := if_neg dropped
    rw [isStored]
    exact CumulativeDomain.leq_trans joined (CumulativeDomain.leq_join_right _ _)

/-- A join shows, with what it inherits, at least what its right side stores. -/
theorem stored_leq_showFrom_join (inherited : Inherited V) {left right : Node V}
    (leftOrdered : left.Ordered) (rightOrdered : right.Ordered) (path : Path) :
    Domain.leq (right.stored path)
      ((merge id .join inherited left right).showFrom id
        (join inherited.result (merge id .join inherited left right).value) path) := by
  induction path generalizing inherited left right with
  | nil =>
      rw [value_merge]
      exact leq_join_store inherited left.value right.value
  | cons label path inductionHypothesis =>
      have passedOn := result_inherit id .join inherited left right
      rw [sinkIntoChild_id] at passedOn
      have merged := inductionHypothesis
        (MergeOp.join.inherit id inherited left.value right.value)
        (leftOrdered.childOrBottom label) (rightOrdered.childOrBottom label)
      rw [stored, showFrom, sinkIntoChild_id, CumulativeDomain.bottom_join, ← passedOn]
      rcases childOrBottom_merge id .join inherited leftOrdered rightOrdered label with
        ⟨_, rightAbsent, _⟩ | ⟨found, outcome, isFound⟩
      · rw [rightAbsent, stored_bottom]
        exact CumulativeDomain.bottom_leq _
      · rw [isFound]
        cases outcome with
        | dropped lower _ =>
            cases lower
        | keptLeft _ _ rightEmpty =>
            rw [stored_eq_bottom rightEmpty]
            exact CumulativeDomain.bottom_leq _
        | keptRight _ nothingInherited _ =>
            -- The right child is kept as it is, and shows what it stores.
            rw [CumulativeDomain.isBottom_iff.mp nothingInherited, CumulativeDomain.bottom_join]
            exact stored_leq_view_of_beginning _ (List.prefix_refl path)
        | merged _ =>
            exact merged
        | pruned empty =>
            rw [eq_bottom_of_isBottom empty] at merged
            exact merged

/-! ## Reads of grafts -/

omit [CumulativeDomain V] in
theorem view_mk_children (sink : V → V) (value : V) (node : Node V) (path : Path) :
    (mk value node.children).view sink path = node.showFrom sink value path := by
  have sameChildren : (mk value node.children).children = node.children := rfl
  exact showFrom_eq_of_children sameChildren sink value path

/-- A read adds what is inherited to the root of a tree, and drops nothing of a tree that is normal
there. -/
theorem NormalUnder.readUnder_nil {inherited : V}
    (filled : Domain.leq inherited Domain.bottom = false) {node : Node V} (ordered : node.Ordered)
    (normal : node.NormalUnder id inherited) :
    Node.readUnder id inherited [] node = mk (join node.value inherited) node.children := by
  have joinedNormal : (mk (join node.value inherited) node.children).NormalUnder id
      Domain.bottom := by
    refine normalUnder_iff.mpr ⟨⟨?fresh, normal.locally.filled⟩, ?below⟩
    case fresh =>
      intro _
      exact CumulativeDomain.leq_bottom_eq_false_mono (CumulativeDomain.leq_join_right _ _) filled
    case below =>
      intro label child found
      have childNormal := normal.child found
      rw [sinkIntoChild_id, CumulativeDomain.join_comm] at childNormal
      rw [sinkIntoChild_id, CumulativeDomain.bottom_join]
      exact childNormal
  rw [Node.readUnder, CumulativeDomain.isBottom_eq_false filled]
  exact joinedNormal.normalize_eq (.mk ordered.increasing ordered.children)

section Grafts

variable {Good : V → Prop} [SemilatticeOn Good] {inherited : V} (good : Good inherited)

include good

theorem readUnder_bottom (path : Path) : readUnder id inherited path bottom = leaf inherited := by
  cases path with
  | nil =>
      cases nothing : Domain.isBottom inherited with
      | true =>
          rw [readUnder, if_pos nothing, CumulativeDomain.isBottom_iff.mp nothing]
          rfl
      | false =>
          have filled := (SemilatticeOn.leq_bottom_eq_isBottom good).trans nothing
          have normal : (bottom : Node V).NormalUnder id inherited :=
            normalUnder_bottom CumulativeDomain.isBottom_bottom inherited
          rw [normal.readUnder_nil filled ordered_bottom]
          exact congrArg leaf (CumulativeDomain.bottom_join inherited)
  | cons label path =>
      have inheritsAll : sinkIntoChild id inherited Domain.bottom = inherited := by
        rw [sinkIntoChild_id, CumulativeDomain.join_bottom]
      exact congrArg leaf inheritsAll

/-- A read goes on below a missing child as if the child stored nothing. -/
theorem readUnder_cons {node : Node V} (goodValue : Good node.value) (label : PathElement)
    (path : Path) :
    readUnder id inherited (label :: path) node =
      readUnder id (sinkIntoChild id inherited node.value) path (node.childOrBottom label) := by
  rw [readUnder]
  cases found : node.child? label with
  | none =>
      rw [childOrBottom, found, Option.getD_none,
        readUnder_bottom (good_sinkIntoChild good goodValue)]
  | some child =>
      rw [childOrBottom_of_child? found]

theorem leq_readUnder_join {left right : Node V}
    (leftOrdered : left.Ordered) (rightOrdered : right.Ordered) :
    right.leq id (readUnder id inherited [] (merge id .join (.inResult inherited) left right)) := by
  refine (leq_iff_stored_leq_view rightOrdered _).mpr fun path => ?_
  have shown := stored_leq_showFrom_join (.inResult inherited) leftOrdered rightOrdered path
  cases nothing : Domain.isBottom inherited with
  | true =>
      obtain rfl := CumulativeDomain.isBottom_iff.mp nothing
      rw [Inherited.inResult, CumulativeDomain.bottom_join] at shown
      rw [readUnder, if_pos nothing]
      exact shown
  | false =>
      -- The join has dropped already what the read would drop.
      have filled := (SemilatticeOn.leq_bottom_eq_isBottom good).trans nothing
      have normal : (merge id .join (.inResult inherited) left right).NormalUnder id inherited :=
        normalUnder_join_of_filled filled leftOrdered rightOrdered
      rw [normal.readUnder_nil filled (Ordered.merge id .join _ _ _ leftOrdered rightOrdered),
        CumulativeDomain.join_comm, view_mk_children]
      exact shown

/-- After a graft, a read of its path covers the grafted tree. -/
theorem leq_readUnder_graftUnder (kind : UpdateKind) {tree node : Node V}
    (treeOrdered : tree.Ordered) (ordered : node.Ordered) (stores : node.Stores Good)
    (path : Path) :
    tree.leq id (readUnder id inherited path
      (graftUnder id kind tree inherited path node)) := by
  induction path generalizing node inherited with
  | nil =>
      cases kind with
      | strong =>
          exact leq_readUnder_join good ordered_bottom treeOrdered
      | weak =>
          exact leq_readUnder_join good ordered treeOrdered
  | cons label path inductionHypothesis =>
      have goodBelow := good_sinkIntoChild good stores.value
      have covered := inductionHypothesis goodBelow (ordered.childOrBottom label)
        (stores.childOrBottom label)
      have goodValue : Good (graftUnder id kind tree inherited (label :: path) node).value := by
        rw [graftUnder, value_withChild]
        exact stores.value
      rw [readUnder_cons good goodValue, graftUnder, value_withChild, childOrBottom_withChild,
        if_pos rfl]
      exact covered

end Grafts

end Node

/-! ## Taint trees -/

namespace TaintTree

variable {heuristics : Heuristics}

theorem leq_read_writeTree {tree : TaintTree heuristics} (formed : tree.WellFormed)
    (grafted : TaintTree heuristics) (kind : UpdateKind) (path : Path) :
    grafted.leq ((tree.writeTree path grafted kind).read path) :=
  Node.leq_readUnder_graftUnder JoinClosed.bottom kind grafted.tree.ordered tree.tree.ordered formed
    path

theorem view_parent_leq_writeTree (tree grafted : TaintTree heuristics) (kind : UpdateKind)
    {path : Path} (belowRoot : path ≠ []) (below : Path) :
    Domain.leq (tree.view path.dropLast)
      ((tree.writeTree path grafted kind).view (path ++ below)) := by
  have elsewhere : ¬ path <+: path.dropLast := by
    intro leads
    have shorter := leads.length_le
    have positive : 0 < path.length := List.length_pos_iff.mpr belowRoot
    rw [List.length_dropLast] at shorter
    omega
  rw [← view_writeTree_elsewhere tree grafted kind elsewhere]
  exact view_leq_view _ ((List.dropLast_prefix path).trans (List.prefix_append path below))

/-- A write of any tree changes only what is shown at and below its path, a read of the path then
covers what was written, and a strong write removes nothing that is inherited from above the path.  If
the written tree is well-formed, a weak write adds what it shows, and a strong one leaves that and what
the parent of the path shows. -/
theorem writeTree_changes_only_below {tree : TaintTree heuristics} (formed : tree.WellFormed)
    (grafted : TaintTree heuristics) (path : Path) :
    (∀ (kind : UpdateKind) (other : Path), ¬ path <+: other →
      (tree.writeTree path grafted kind).view other = tree.view other) ∧
    (∀ kind : UpdateKind, grafted.leq ((tree.writeTree path grafted kind).read path)) ∧
    (path ≠ [] → ∀ below : Path,
      Domain.leq (tree.view path.dropLast)
        ((tree.writeTree path grafted .strong).view (path ++ below))) ∧
    (grafted.WellFormed → ∀ below : Path,
      (tree.writeTree path grafted .weak).view (path ++ below) =
        Domain.join (tree.view (path ++ below)) (grafted.view below) ∧
      (tree.writeTree path grafted .strong).view (path ++ below) =
        if path = [] then grafted.view below
        else Domain.join (tree.view path.dropLast) (grafted.view below)) := by
  refine ⟨?frame, ?shown, ?inherited, ?joined⟩
  case frame =>
    intro kind other elsewhere
    exact view_writeTree_elsewhere tree grafted kind elsewhere
  case shown =>
    intro kind
    exact leq_read_writeTree formed grafted kind path
  case inherited =>
    intro belowRoot below
    exact view_parent_leq_writeTree tree grafted .strong belowRoot below
  case joined =>
    intro graftedFormed below
    exact ⟨view_writeTree_weak formed graftedFormed path below,
      view_writeTree_strong formed graftedFormed path below⟩

/-- Taint of a root and of a field of its elements. -/
def layeredTaint : TaintTree .standard :=
  rootTaint.writeTree [.anyIndex, .field "name"] elementTaint .weak

/-- A strong write to the elements of a tainted root replaces what they store, and keeps what they
inherit. -/
theorem writeTree_changes_only_below_elements :
    layeredTaint.WellFormed ∧ elementTaint.WellFormed ∧
    (layeredTaint.writeTree [.anyIndex] elementTaint .strong).view [] = layeredTaint.view [] ∧
    elementTaint.leq ((layeredTaint.writeTree [.anyIndex] elementTaint .strong).read [.anyIndex]) ∧
    Domain.leq (layeredTaint.view [])
      ((layeredTaint.writeTree [.anyIndex] elementTaint .strong).view [.anyIndex]) ∧
    (layeredTaint.writeTree [.anyIndex] elementTaint .strong).view [.anyIndex, .anyIndex] =
      Domain.join (layeredTaint.view []) (elementTaint.view [.anyIndex]) := by
  have rootFormed : rootTaint.WellFormed := of_decide_eq_true (by cbv)
  have elementFormed : elementTaint.WellFormed := of_decide_eq_true (by cbv)
  have layeredFormed : layeredTaint.WellFormed :=
    stores_writeTree rootFormed elementFormed [.anyIndex, .field "name"] .weak
  have belowRoot : [PathElement.anyIndex] ≠ [] := by decide
  have elsewhere : ¬ [PathElement.anyIndex] <+: [] := by decide
  obtain ⟨frame, shown, inherited, shows⟩ :=
    writeTree_changes_only_below layeredFormed elementTaint [.anyIndex]
  exact ⟨layeredFormed, elementFormed, frame .strong [] elsewhere, shown .strong,
    inherited belowRoot [], (shows elementFormed [.anyIndex]).2⟩

/-- Taint that was found at some lines. -/
def foundAt (lines : List UInt32) : Taint heuristics :=
  .ofFrame ⟨"A"⟩ ⟨.empty, .listed (.ofList (lines.map (Position.mk "f")))⟩

def secondLine : TaintTree ⟨4, 2, 1⟩ :=
  .ofEdges [([.field "a"], foundAt [2])]

def otherKind : TaintTree ⟨4, 2, 1⟩ :=
  .leaf (.ofKind ⟨"K"⟩)

/-- Taint with three lines where two are allowed. -/
def threeLines : TaintTree ⟨4, 2, 1⟩ :=
  .leaf (foundAt [1, 2, 3])

/-- Below the three lines one of them is repeated, together with another kind of taint. -/
def repeatedLine : TaintTree ⟨4, 2, 1⟩ :=
  threeLines.writeTree [.field "b"] (.leaf ((foundAt [2]).add ⟨"K"⟩ .empty)) .weak

/-- Three lines are widened when they are joined with one of them, but not when it is dropped because
the three lines cover it.  So the taint below a write is not the join if the written tree is not
well-formed, neither for a weak write nor for a strong one. -/
theorem writeTree_shows_no_join :
    secondLine.Normal ∧ ¬ threeLines.WellFormed ∧
    (secondLine.writeTree [] threeLines .weak).view [.field "a"] = foundAt [1, 2, 3] ∧
    (secondLine.writeTree [] threeLines .weak).view [.field "a"] ≠
      Domain.join (secondLine.view [.field "a"]) (threeLines.view [.field "a"]) ∧
    otherKind.Normal ∧ ¬ repeatedLine.WellFormed ∧
    (otherKind.writeTree [.field "x"] repeatedLine .strong).view [.field "x", .field "b"] ≠
      Domain.join (otherKind.view []) (repeatedLine.view [.field "b"]) := by
  have lineFormed : (foundAt [2] : Taint ⟨4, 2, 1⟩).WellFormed := of_decide_eq_true (by cbv)
  have kindFormed : (Taint.ofKind ⟨"K"⟩ : Taint ⟨4, 2, 1⟩).WellFormed :=
    of_decide_eq_true (by cbv)
  refine ⟨normal_ofEdges (List.forall_mem_singleton.mpr lineFormed), ?_, ?_, ?_,
    normal_leaf kindFormed, ?_, ?_⟩
  · exact of_decide_eq_false (by cbv)
  · exact of_decide_eq_true (by cbv)
  · exact of_decide_eq_false (by cbv)
  · exact of_decide_eq_false (by cbv)
  · exact of_decide_eq_false (by cbv)

end TaintTree

end AliasTaint
