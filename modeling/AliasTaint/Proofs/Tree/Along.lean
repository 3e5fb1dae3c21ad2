import AliasTaint.Proofs.Ideal
import AliasTaint.Proofs.Tree.Embedding

/-!
# Values along a path

In a tree whose values sink unchanged, a path shows the join of everything that is stored along it.
So the shown value is inside an ideal exactly if every value along the path is.  Each operation on
trees is described here by the values that have to be inside for its result to be inside: a merge
asks for both sides, a graft for what stays and for the grafted tree, a read for the whole path.

What is dropped because the ancestors cover it makes no difference, since an ideal that holds the
ancestors holds what they cover.
-/

namespace AliasTaint

open Domain

variable {V : Type} [Domain V] {Good Inside : V → Prop}

namespace Node

/-! ## Trees that store well-formed values -/

omit [Domain V] in
theorem Stores.value {node : Node V} (stores : node.Stores Good) : Good node.value := by
  cases node with
  | mk value children =>
      exact (stores_mk.mp stores).1

omit [Domain V] in
theorem Stores.children {node : Node V} (stores : node.Stores Good) :
    ∀ entry ∈ node.children, entry.2.Stores Good := by
  cases node with
  | mk value children =>
      exact (stores_mk.mp stores).2

omit [Domain V] in
theorem Stores.child? {node child : Node V} {label : PathElement}
    (stores : node.Stores Good) (found : node.child? label = some child) :
    child.Stores Good :=
  stores.children (label, child) (Entries.mem_of_lookup found)

omit [Domain V] in
theorem stores_leaf {value : V} (good : Good value) : (leaf value).Stores Good :=
  stores_mk.mpr ⟨good, nofun⟩

omit [Domain V] in
theorem stores_of_child? {node : Node V} (ordered : node.Ordered) (goodValue : Good node.value)
    (below : ∀ label child, node.child? label = some child → child.Stores Good) :
    node.Stores Good := by
  cases node with
  | mk value children =>
      refine stores_mk.mpr ⟨goodValue, ?_⟩
      intro entry member
      exact below entry.1 entry.2 (ordered.increasing.lookup_eq_some_iff.mpr member)

theorem stores_childOrBottom (goodBottom : Good Domain.bottom) {node : Node V}
    (below : ∀ entry ∈ node.children, entry.2.Stores Good) (label : PathElement) :
    (node.childOrBottom label).Stores Good := by
  cases found : node.child? label with
  | none =>
      rw [childOrBottom, found]
      exact stores_leaf goodBottom
  | some child =>
      rw [childOrBottom_of_child? found]
      exact below (label, child) (Entries.mem_of_lookup found)

section Closed

variable [JoinClosed Good]

theorem stores_bottom : (bottom : Node V).Stores Good :=
  stores_leaf JoinClosed.bottom

theorem Stores.childOrBottom {node : Node V} (stores : node.Stores Good) (label : PathElement) :
    (node.childOrBottom label).Stores Good :=
  stores_childOrBottom JoinClosed.bottom stores.children label

theorem good_store {op : MergeOp} (isJoin : op = .join ∨ op = .normalize)
    (inherited : Inherited V) {left right : V} (goodLeft : Good left) (goodRight : Good right) :
    Good (op.store inherited left right) := by
  have goodCombined : Good (op.combine inherited left right) := by
    rcases isJoin with rfl | rfl <;> exact JoinClosed.join goodLeft goodRight
  simp only [MergeOp.store]
  split
  · exact JoinClosed.bottom
  · exact goodCombined

theorem Stores.merge (sink : V → V) {op : MergeOp} (isJoin : op = .join ∨ op = .normalize)
    (inherited : Inherited V) {left right : Node V}
    (leftOrdered : left.Ordered) (rightOrdered : right.Ordered)
    (leftStores : left.Stores Good) (rightStores : right.Stores Good) :
    (merge sink op inherited left right).Stores Good := by
  induction left, right using Node.induction₂ generalizing inherited with
  | step left right inductionHypothesis =>
      refine stores_of_child? (Ordered.merge sink op _ _ _ leftOrdered rightOrdered) ?_ ?_
      · rw [value_merge]
        exact good_store isJoin inherited leftStores.value rightStores.value
      · intro label child found
        rw [child?_merge sink op inherited leftOrdered rightOrdered] at found
        split at found
        · rename_i bound
          have outcome := mergedChild_mergedChild? sink op
            (op.inherit sink inherited left.value right.value)
            (left.childOrBottom label) (right.childOrBottom label)
          rw [found] at outcome
          cases outcome with
          | keptLeft _ _ _ => exact leftStores.childOrBottom label
          | keptRight _ _ _ => exact rightStores.childOrBottom label
          | merged _ =>
              exact inductionHypothesis label (by simpa using bound) _
                (leftOrdered.childOrBottom label) (rightOrdered.childOrBottom label)
                (leftStores.childOrBottom label) (rightStores.childOrBottom label)
        · exact nomatch found

theorem Stores.normalize (sink : V → V) {node : Node V}
    (ordered : node.Ordered) (stores : node.Stores Good) :
    (node.normalize sink).Stores Good :=
  Stores.merge sink (Or.inr rfl) .nothing ordered ordered_bottom stores stores_bottom

end Closed

/-! ## Everything along a path -/

/-- Every value stored along a path, from the node itself to the end of the path, is inside. -/
def AllAlong (Inside : V → Prop) : Path → Node V → Prop
  | [], node => Inside node.value
  | label :: path, node => Inside node.value ∧ AllAlong Inside path (node.childOrBottom label)

theorem AllAlong.value {path : Path} {node : Node V} (all : node.AllAlong Inside path) :
    Inside node.value := by
  cases path with
  | nil =>
      exact all
  | cons label path =>
      exact all.1

theorem allAlong_bottom (bottomInside : Inside Domain.bottom) (path : Path) :
    (bottom : Node V).AllAlong Inside path := by
  induction path with
  | nil =>
      exact bottomInside
  | cons label path inductionHypothesis =>
      exact ⟨bottomInside, inductionHypothesis⟩

theorem allAlong_leaf_iff (bottomInside : Inside Domain.bottom) (value : V) (path : Path) :
    (leaf value).AllAlong Inside path ↔ Inside value := by
  cases path with
  | nil =>
      exact Iff.rfl
  | cons label path =>
      exact and_iff_left (allAlong_bottom bottomInside path)

section Ideals

variable [SemilatticeOn Good] (ideal : Ideal Good Inside)

include ideal

theorem allAlong_of_isBottom {node : Node V} (stores : node.Stores Good)
    (isNothing : node.isBottom) (path : Path) : node.AllAlong Inside path := by
  have valueInside := ideal.of_isBottom stores.value (isBottom_value isNothing)
  cases path with
  | nil =>
      exact valueInside
  | cons label path =>
      rw [AllAlong, childOrBottom_of_isBottom isNothing label]
      exact ⟨valueInside, allAlong_bottom ideal.bottom path⟩

theorem inside_sinkIntoChild_iff {ancestors value : V}
    (goodAncestors : Good ancestors) (goodValue : Good value) :
    Inside (sinkIntoChild id ancestors value) ↔ Inside ancestors ∧ Inside value := by
  unfold sinkIntoChild
  split
  · rename_i nothing
    rw [Bool.and_eq_true] at nothing
    exact iff_of_true ideal.bottom
      ⟨ideal.of_isBottom goodAncestors nothing.1, ideal.of_isBottom goodValue nothing.2⟩
  · exact ideal.join_iff goodAncestors goodValue

omit ideal in
theorem good_sinkIntoChild {ancestors value : V}
    (goodAncestors : Good ancestors) (goodValue : Good value) :
    Good (sinkIntoChild id ancestors value) := by
  unfold sinkIntoChild
  split
  · exact JoinClosed.bottom
  · exact JoinClosed.join goodAncestors goodValue

/-! ## What a path shows -/

omit ideal in
theorem good_showFrom {node : Node V} (stores : node.Stores Good)
    {shown : V} (goodShown : Good shown) (path : Path) :
    Good (node.showFrom id shown path) := by
  induction path generalizing node shown with
  | nil =>
      exact goodShown
  | cons label path inductionHypothesis =>
      have childStores := stores.childOrBottom label
      have goodPassed := good_sinkIntoChild JoinClosed.bottom goodShown
      exact inductionHypothesis childStores (JoinClosed.join goodPassed childStores.value)

theorem inside_showFrom_iff {node : Node V} (stores : node.Stores Good)
    {shown : V} (goodShown : Good shown) (covers : Inside shown → Inside node.value)
    (path : Path) :
    Inside (node.showFrom id shown path) ↔ Inside shown ∧ node.AllAlong Inside path := by
  induction path generalizing node shown with
  | nil =>
      exact (and_iff_left_of_imp covers).symm
  | cons label path inductionHypothesis =>
      have childStores := stores.childOrBottom label
      have goodPassed := good_sinkIntoChild JoinClosed.bottom goodShown
      have goodChild := JoinClosed.join goodPassed childStores.value
      have childShown :
          Inside (join (sinkIntoChild id Domain.bottom shown) (node.childOrBottom label).value) ↔
            Inside shown ∧ Inside (node.childOrBottom label).value := by
        rw [ideal.join_iff goodPassed childStores.value,
          inside_sinkIntoChild_iff ideal JoinClosed.bottom goodShown]
        exact and_congr_left' (and_iff_right ideal.bottom)
      rw [showFrom, inductionHypothesis childStores goodChild fun both => (childShown.mp both).2,
        childShown, AllAlong]
      constructor
      · rintro ⟨⟨shownInside, _⟩, below⟩
        exact ⟨shownInside, covers shownInside, below⟩
      · rintro ⟨shownInside, _, below⟩
        exact ⟨⟨shownInside, below.value⟩, below⟩

/-- The value shown at a path is inside exactly if all values along the path are. -/
theorem inside_view_iff {node : Node V} (stores : node.Stores Good) (path : Path) :
    Inside (node.view id path) ↔ node.AllAlong Inside path := by
  rw [view, inside_showFrom_iff ideal stores stores.value fun valueInside => valueInside]
  exact and_iff_right_of_imp AllAlong.value

/-! ## Merges -/

theorem inside_store_iff {op : MergeOp} (isJoin : op = .join ∨ op = .normalize)
    {inherited : Inherited V} (goodInherited : Good inherited.result)
    (inheritedInside : Inside inherited.result)
    {left right : V} (goodLeft : Good left) (goodRight : Good right) :
    Inside (op.store inherited left right) ↔ Inside left ∧ Inside right := by
  have combined : op.combine inherited left right = join left right := by
    rcases isJoin with rfl | rfl <;> rfl
  rw [← ideal.join_iff goodLeft goodRight]
  simp only [MergeOp.store, combined]
  split
  · rename_i covered
    rw [Bool.and_eq_true] at covered
    have joinInside := ideal.of_leq (JoinClosed.join goodLeft goodRight) goodInherited
      covered.2 inheritedInside
    exact iff_of_true ideal.bottom joinInside
  · exact Iff.rfl

theorem allAlong_merge_iff {op : MergeOp} (isJoin : op = .join ∨ op = .normalize)
    {inherited : Inherited V} (goodInherited : Good inherited.result)
    (inheritedInside : Inside inherited.result)
    {left right : Node V} (leftOrdered : left.Ordered) (rightOrdered : right.Ordered)
    (leftStores : left.Stores Good) (rightStores : right.Stores Good) (path : Path) :
    (merge id op inherited left right).AllAlong Inside path ↔
      left.AllAlong Inside path ∧ right.AllAlong Inside path := by
  induction path generalizing inherited left right with
  | nil =>
      rw [AllAlong, value_merge]
      exact inside_store_iff ideal isJoin goodInherited inheritedInside
        leftStores.value rightStores.value
  | cons label path inductionHypothesis =>
      have goodStored := good_store isJoin inherited leftStores.value rightStores.value
      have storedInside := inside_store_iff ideal isJoin goodInherited inheritedInside
        leftStores.value rightStores.value
      have leftChildStores := leftStores.childOrBottom label
      have rightChildStores := rightStores.childOrBottom label
      rw [AllAlong, AllAlong, AllAlong, value_merge, and_and_and_comm, storedInside]
      refine and_congr_right fun valuesInside => ?_
      have passedInside :
          Inside (op.inherit id inherited left.value right.value).result :=
        (inside_sinkIntoChild_iff ideal goodInherited goodStored).mpr
          ⟨inheritedInside, storedInside.mpr valuesInside⟩
      have mergedChild := inductionHypothesis
        (good_sinkIntoChild goodInherited goodStored) passedInside
        (leftOrdered.childOrBottom label) (rightOrdered.childOrBottom label)
        leftChildStores rightChildStores
      rcases childOrBottom_merge id op inherited leftOrdered rightOrdered label with
        ⟨leftAbsent, rightAbsent, absent⟩ | ⟨found, outcome, isFound⟩
      · have nothing := allAlong_bottom ideal.bottom path
        rw [leftAbsent, rightAbsent, absent]
        exact iff_of_true nothing ⟨nothing, nothing⟩
      · rw [isFound]
        cases outcome with
        | dropped lower _ =>
            rcases isJoin with rfl | rfl <;> exact nomatch lower
        | keptLeft _ _ rightEmpty =>
            have rightInside := allAlong_of_isBottom ideal rightChildStores rightEmpty path
            exact (and_iff_left rightInside).symm
        | keptRight _ _ leftEmpty =>
            have leftInside := allAlong_of_isBottom ideal leftChildStores leftEmpty path
            exact (and_iff_right leftInside).symm
        | merged _ =>
            exact mergedChild
        | pruned empty =>
            have mergedStores := Stores.merge id isJoin
              (op.inherit id inherited left.value right.value)
              (leftOrdered.childOrBottom label) (rightOrdered.childOrBottom label)
              leftChildStores rightChildStores
            have mergedInside := allAlong_of_isBottom ideal mergedStores empty path
            exact iff_of_true (allAlong_bottom ideal.bottom path) (mergedChild.mp mergedInside)

theorem allAlong_normalize_iff {node : Node V} (ordered : node.Ordered)
    (stores : node.Stores Good) (path : Path) :
    (node.normalize id).AllAlong Inside path ↔ node.AllAlong Inside path := by
  have goodNothing : Good (Inherited.nothing : Inherited V).result := JoinClosed.bottom
  have merged := allAlong_merge_iff ideal (Or.inr rfl) goodNothing ideal.bottom
    ordered ordered_bottom stores stores_bottom path
  exact merged.trans (and_iff_left (allAlong_bottom ideal.bottom path))

/-! ## Reads -/

omit ideal in
theorem Stores.readUnder {node : Node V} (ordered : node.Ordered) (stores : node.Stores Good)
    {inherited : V} (goodInherited : Good inherited) (path : Path) :
    (node.readUnder id inherited path).Stores Good := by
  induction path generalizing node inherited with
  | nil =>
      simp only [Node.readUnder]
      split
      · exact stores
      · refine Stores.normalize id (.mk ordered.increasing ordered.children) ?_
        cases node with
        | mk value children =>
            obtain ⟨goodValue, childrenStore⟩ := stores_mk.mp stores
            exact stores_mk.mpr ⟨JoinClosed.join goodValue goodInherited, childrenStore⟩
  | cons label path inductionHypothesis =>
      have goodPassed := good_sinkIntoChild goodInherited stores.value
      simp only [Node.readUnder]
      split
      · exact stores_leaf goodPassed
      · rename_i child found
        exact inductionHypothesis (ordered.child? found) (stores.child? found) goodPassed

theorem allAlong_readUnder_iff {node : Node V} (ordered : node.Ordered) (stores : node.Stores Good)
    {inherited : V} (goodInherited : Good inherited) (path below : Path) :
    (node.readUnder id inherited path).AllAlong Inside below ↔
      Inside inherited ∧ node.AllAlong Inside (path ++ below) := by
  induction path generalizing node inherited with
  | nil =>
      simp only [Node.readUnder, List.nil_append]
      split
      · rename_i nothingInherited
        exact (and_iff_right (ideal.of_isBottom goodInherited nothingInherited)).symm
      · cases node with
        | mk value children =>
            obtain ⟨goodValue, childrenStore⟩ := stores_mk.mp stores
            have goodJoin := JoinClosed.join goodValue goodInherited
            refine (allAlong_normalize_iff ideal (.mk ordered.increasing ordered.children)
              (stores_mk.mpr ⟨goodJoin, childrenStore⟩) below).trans ?_
            -- Both nodes have the same children, so they differ in their own value only.
            have valueInside := ideal.join_iff goodValue goodInherited
            cases below with
            | nil =>
                exact valueInside.trans and_comm
            | cons label below =>
                refine (and_congr_left' (valueInside.trans and_comm)).trans ?_
                exact and_assoc
  | cons label path inductionHypothesis =>
      have goodPassed := good_sinkIntoChild goodInherited stores.value
      have passedInside := inside_sinkIntoChild_iff ideal goodInherited stores.value
      simp only [Node.readUnder, List.cons_append, AllAlong]
      rw [← and_assoc, ← passedInside]
      split
      · rename_i absent
        have childAbsent : node.childOrBottom label = bottom := by
          rw [Node.childOrBottom, absent]
          rfl
        rw [allAlong_leaf_iff ideal.bottom, childAbsent]
        exact (and_iff_left (allAlong_bottom ideal.bottom _)).symm
      · rename_i child found
        rw [childOrBottom_of_child? found]
        exact inductionHypothesis (ordered.child? found) (stores.child? found) goodPassed

end Ideals

/-! ## Paths in two parts -/

/-- Every value stored along a path before its end is inside. -/
def AllAbove (Inside : V → Prop) : Path → Node V → Prop
  | [], _ => True
  | label :: path, node => Inside node.value ∧ AllAbove Inside path (node.childOrBottom label)

theorem rawRead_bottom (path : Path) : (bottom : Node V).rawRead path = bottom := by
  cases path <;> rfl

theorem rawRead_cons (node : Node V) (label : PathElement) (path : Path) :
    node.rawRead (label :: path) = (node.childOrBottom label).rawRead path := by
  cases found : node.child? label with
  | none =>
      rw [childOrBottom, found, Option.getD_none, rawRead_bottom, rawRead, descend?, found]
      rfl
  | some child =>
      rw [childOrBottom_of_child? found, rawRead, descend?, found]
      rfl

theorem Stores.rawRead [JoinClosed Good] {node : Node V} (stores : node.Stores Good)
    (path : Path) : (node.rawRead path).Stores Good := by
  induction path generalizing node with
  | nil =>
      exact stores
  | cons label path inductionHypothesis =>
      rw [rawRead_cons]
      exact inductionHypothesis (stores.childOrBottom label)

theorem allAlong_append_iff {node : Node V} (path below : Path) :
    node.AllAlong Inside (path ++ below) ↔
      node.AllAbove Inside path ∧ (node.rawRead path).AllAlong Inside below := by
  induction path generalizing node with
  | nil =>
      exact (and_iff_right trivial).symm
  | cons label path inductionHypothesis =>
      rw [List.cons_append, AllAlong, AllAbove, inductionHypothesis, rawRead_cons, and_assoc]

theorem allAbove_iff_dropLast {node : Node V} {path : Path} (nonempty : path ≠ []) :
    node.AllAbove Inside path ↔ node.AllAlong Inside path.dropLast := by
  induction path generalizing node with
  | nil =>
      exact absurd rfl nonempty
  | cons label path inductionHypothesis =>
      cases path with
      | nil =>
          exact and_iff_left trivial
      | cons next path =>
          rw [AllAbove, inductionHypothesis (List.cons_ne_nil next path)]
          rfl

/-! ## Writes -/

section Writes

theorem Stores.withChild {node child : Node V} (ordered : node.Ordered)
    (childOrdered : child.Ordered) (stores : node.Stores Good) (childStores : child.Stores Good)
    (label : PathElement) :
    (node.withChild label child).Stores Good := by
  refine stores_of_child? (ordered.withChild label childOrdered) ?_ ?_
  · rw [value_withChild]
    exact stores.value
  · intro other found isFound
    rw [child?_withChild] at isFound
    split at isFound
    · obtain ⟨rfl, _⟩ := nonBottom?_eq_some_iff.mp isFound
      exact childStores
    · exact stores.child? isFound

theorem Stores.graftUnder [JoinClosed Good] (sink : V → V) (kind : UpdateKind) {tree node : Node V}
    (treeOrdered : tree.Ordered) (ordered : node.Ordered)
    (treeStores : tree.Stores Good) (stores : node.Stores Good) (inherited : V) (path : Path) :
    (Node.graftUnder sink kind tree inherited path node).Stores Good := by
  induction path generalizing node inherited with
  | nil =>
      cases kind with
      | strong =>
          exact Stores.merge sink (Or.inl rfl) _ ordered_bottom treeOrdered stores_bottom treeStores
      | weak =>
          exact Stores.merge sink (Or.inl rfl) _ ordered treeOrdered stores treeStores
  | cons label path inductionHypothesis =>
      have childOrdered := ordered.childOrBottom label
      exact stores.withChild ordered (Ordered.graftUnder sink kind treeOrdered path _ _ childOrdered)
        (inductionHypothesis childOrdered (stores.childOrBottom label) _) label

variable [SemilatticeOn Good] (ideal : Ideal Good Inside)

include ideal

theorem allAlong_withChild_iff {node child : Node V} (childStores : child.Stores Good)
    (changed label : PathElement) (path : Path) :
    (node.withChild changed child).AllAlong Inside (label :: path) ↔
      Inside node.value ∧
        (if label = changed then child else node.childOrBottom label).AllAlong Inside path := by
  rw [AllAlong, value_withChild, childOrBottom, child?_withChild]
  refine and_congr_right fun _ => ?_
  split
  · cases empty : child.isBottom with
    | true =>
        have nothing : child.nonBottom?.getD bottom = bottom := by
          simp [nonBottom?, empty]
        rw [nothing]
        exact iff_of_true (allAlong_bottom ideal.bottom path)
          (allAlong_of_isBottom ideal childStores empty path)
    | false =>
        have kept : child.nonBottom?.getD bottom = child := by
          simp [nonBottom?, empty]
        rw [kept]
  · exact Iff.rfl

/-- At and below its path, a graft asks for what is above it, for the grafted tree, and, if it is
weak, for what was there before. -/
theorem allAlong_graftUnder_iff (kind : UpdateKind) {tree node : Node V}
    (treeOrdered : tree.Ordered) (ordered : node.Ordered)
    (treeStores : tree.Stores Good) (stores : node.Stores Good)
    {inherited : V} (goodInherited : Good inherited) (inheritedInside : Inside inherited)
    (path below : Path) :
    (graftUnder id kind tree inherited path node).AllAlong Inside (path ++ below) ↔
      node.AllAbove Inside path ∧
        (kind = .weak → (node.rawRead path).AllAlong Inside below) ∧
        tree.AllAlong Inside below := by
  induction path generalizing node inherited with
  | nil =>
      have goodResult : Good (Inherited.inResult inherited).result := goodInherited
      rw [AllAbove, true_and, List.nil_append]
      cases kind with
      | strong =>
          have merged := allAlong_merge_iff ideal (Or.inl rfl) goodResult inheritedInside
            ordered_bottom treeOrdered stores_bottom treeStores below
          refine merged.trans (and_congr_left' ?_)
          exact iff_of_true (allAlong_bottom ideal.bottom below) nofun
      | weak =>
          have merged := allAlong_merge_iff ideal (Or.inl rfl) goodResult inheritedInside
            ordered treeOrdered stores treeStores below
          refine merged.trans (and_congr_left' ?_)
          exact ⟨fun insideBefore _ => insideBefore, fun insideBefore => insideBefore rfl⟩
  | cons label path inductionHypothesis =>
      have childOrdered := ordered.childOrBottom label
      have childStores := stores.childOrBottom label
      rw [graftUnder, List.cons_append, allAlong_withChild_iff ideal
        (Stores.graftUnder id kind treeOrdered childOrdered treeStores childStores _ path),
        if_pos rfl, AllAbove, and_assoc, rawRead_cons]
      refine and_congr_right fun valueInside => ?_
      exact inductionHypothesis childOrdered childStores
        (good_sinkIntoChild goodInherited stores.value)
        ((inside_sinkIntoChild_iff ideal goodInherited stores.value).mpr
          ⟨inheritedInside, valueInside⟩)

end Writes

end Node

end AliasTaint
