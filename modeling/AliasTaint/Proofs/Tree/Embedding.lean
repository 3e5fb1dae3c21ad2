import AliasTaint.Proofs.Tree.Order

/-!
# Trees over a part of a domain

A domain may be lawful on a part of its values only.  Trees that store such values alone are trees
over that part, seen through the embedding of its values, and the operations on trees commute with
the embedding.  So what holds of all trees over a lawful domain holds of these trees as well.
-/

namespace AliasTaint

open Domain

variable {W V : Type} [Domain W] [Domain V]

/-! ## Nodes by their children -/

namespace Node

omit [Domain V] in
/-- Nodes with ordered children are equal if they store the same value and the same children. -/
theorem eq_of_child?_eq
    {left right : Node V} (leftOrdered : left.Ordered) (rightOrdered : right.Ordered)
    (sameValue : left.value = right.value)
    (sameChild : ∀ label, left.child? label = right.child? label) :
    left = right := by
  cases left with
  | mk leftValue leftChildren =>
      cases right with
      | mk rightValue rightChildren =>
          have sameChildren : leftChildren = rightChildren :=
            leftOrdered.increasing.eq_of_lookup_eq rightOrdered.increasing sameChild
          have sameValues : leftValue = rightValue := sameValue
          rw [sameValues, sameChildren]

private theorem induction_bottom
    {motive : Node V → Node V → Prop}
    (step : ∀ left right,
      (∀ label, (left.child? label).isSome ∨ (right.child? label).isSome →
        motive (left.childOrBottom label) (right.childOrBottom label)) →
      motive left right)
    (right : Node V) : motive bottom right := by
  induction right using Node.induction with
  | step value children inductionHypothesis =>
      apply step
      intro label bound
      obtain ⟨child, found⟩ : ∃ child, (mk value children).child? label = some child := by
        rcases bound with leftBound | rightBound
        · exact nomatch leftBound
        · exact Option.isSome_iff_exists.mp rightBound
      rw [childOrBottom_bottom, childOrBottom_of_child? found]
      exact inductionHypothesis (label, child) (Entries.mem_of_lookup found)

/-- A statement holds of every two nodes if it passes from the children under each label that one of
them binds to the two nodes. -/
theorem induction₂
    {motive : Node V → Node V → Prop}
    (step : ∀ left right,
      (∀ label, (left.child? label).isSome ∨ (right.child? label).isSome →
        motive (left.childOrBottom label) (right.childOrBottom label)) →
      motive left right)
    (left right : Node V) : motive left right := by
  induction left using Node.induction generalizing right with
  | step value children inductionHypothesis =>
      apply step
      intro label _
      cases found : (mk value children).child? label with
      | none =>
          rw [childOrBottom, found]
          exact induction_bottom step _
      | some child =>
          rw [childOrBottom_of_child? found]
          exact inductionHypothesis (label, child) (Entries.mem_of_lookup found) _

/-! ## Embedded nodes -/

omit [Domain W] [Domain V] in
@[simp]
theorem value_mapValues (embed : W → V) (node : Node W) :
    (node.mapValues embed).value = embed node.value := by
  cases node
  rfl

omit [Domain W] [Domain V] in
theorem child?_mapValues (embed : W → V) (node : Node W) (label : PathElement) :
    (node.mapValues embed).child? label = (node.child? label).map (mapValues embed) := by
  cases node with
  | mk value children =>
      rw [mapValues, mapValuesOf_eq_map]
      exact Entries.lookup_mapValues (fun _ child => child.mapValues embed) label children

omit [Domain W] [Domain V] in
theorem isSome_child?_mapValues (embed : W → V) (node : Node W) (label : PathElement) :
    ((node.mapValues embed).child? label).isSome = (node.child? label).isSome := by
  rw [child?_mapValues, Option.isSome_map]

variable {embed : W → V}

theorem isBottom_mapValues (embedding : Embedding embed) (node : Node W) :
    (node.mapValues embed).isBottom = node.isBottom := by
  cases node with
  | mk value children =>
      have sameEmpty : (mapValuesOf embed children).isEmpty = children.isEmpty := by
        rw [mapValuesOf_eq_map, List.isEmpty_map]
      simp [mapValues, isBottom, Node.value, Node.children, embedding.isBottom, sameEmpty]

theorem mapValues_bottom (keepsBottom : embed Domain.bottom = Domain.bottom) :
    (bottom : Node W).mapValues embed = bottom := by
  simp [bottom, leaf, mapValues, mapValuesOf, keepsBottom]

theorem nonBottom?_mapValues (embedding : Embedding embed) (node : Node W) :
    (node.mapValues embed).nonBottom? = node.nonBottom?.map (mapValues embed) := by
  simp only [nonBottom?, isBottom_mapValues embedding]
  split <;> rfl

theorem childOrBottom_mapValues
    (keepsBottom : embed Domain.bottom = Domain.bottom) (node : Node W) (label : PathElement) :
    (node.mapValues embed).childOrBottom label = (node.childOrBottom label).mapValues embed := by
  rw [childOrBottom, childOrBottom, child?_mapValues]
  cases node.child? label with
  | none => exact (mapValues_bottom keepsBottom).symm
  | some child => rfl

end Node

/-! ## Embedded merges -/

/-- What is inherited, seen through an embedding. -/
def Inherited.map (embed : W → V) (inherited : Inherited W) : Inherited V where
  left := embed inherited.left
  right := embed inherited.right
  result := embed inherited.result

section Merges

variable {embed : W → V} {sinkW : W → W} {sinkV : V → V}

theorem sinkIntoChild_embed
    (embedding : Embedding embed) (sinks : ∀ value, embed (sinkW value) = sinkV (embed value))
    (ancestors value : W) :
    embed (sinkIntoChild sinkW ancestors value) =
      sinkIntoChild sinkV (embed ancestors) (embed value) := by
  unfold sinkIntoChild
  rw [embedding.isBottom, embedding.isBottom]
  split
  · exact embedding.bottom
  · rw [sinks, embedding.join]

namespace MergeOp

theorem combine_embed
    (embedding : Embedding embed) (op : MergeOp) (inherited : Inherited W) (left right : W) :
    embed (op.combine inherited left right) =
      op.combine (inherited.map embed) (embed left) (embed right) := by
  cases op with
  | join => exact embedding.join left right
  | widen => exact embedding.widen left right
  | normalize => exact embedding.join left right
  | meet => simp only [combine, embedding.meet, embedding.join, Inherited.map]
  | narrow => simp only [combine, embedding.narrow, embedding.join, Inherited.map]

theorem store_embed
    (embedding : Embedding embed) (op : MergeOp) (inherited : Inherited W) (left right : W) :
    embed (op.store inherited left right) =
      op.store (inherited.map embed) (embed left) (embed right) := by
  have sameTests :
      (!Domain.isBottom (op.combine (inherited.map embed) (embed left) (embed right)) &&
        Domain.leq (op.combine (inherited.map embed) (embed left) (embed right))
          (inherited.map embed).result) =
      (!Domain.isBottom (op.combine inherited left right) &&
        Domain.leq (op.combine inherited left right) inherited.result) := by
    rw [← combine_embed embedding, embedding.isBottom]
    exact congrArg _ (embedding.leq _ _)
  simp only [store, sameTests]
  split
  · exact embedding.bottom
  · exact combine_embed embedding op inherited left right

theorem inherit_embed
    (embedding : Embedding embed) (sinks : ∀ value, embed (sinkW value) = sinkV (embed value))
    (op : MergeOp) (inherited : Inherited W) (left right : W) :
    (op.inherit sinkW inherited left right).map embed =
      op.inherit sinkV (inherited.map embed) (embed left) (embed right) := by
  have passed (value above : W) :
      embed (if op.isUpper then Domain.bottom
        else sinkIntoChild sinkW Domain.bottom (Domain.join value above)) =
      if op.isUpper then Domain.bottom
        else sinkIntoChild sinkV Domain.bottom (Domain.join (embed value) (embed above)) := by
    split
    · exact embedding.bottom
    · rw [sinkIntoChild_embed embedding sinks, embedding.bottom, embedding.join]
  simp only [inherit, Inherited.map, passed, sinkIntoChild_embed embedding sinks,
    store_embed embedding]

theorem branch_embed
    (embedding : Embedding embed) (op : MergeOp) (inherited : Inherited W) (left right : Node W) :
    op.branch (inherited.map embed) (left.mapValues embed) (right.mapValues embed) =
      op.branch inherited left right := by
  simp only [branch, Inherited.map, embedding.isBottom, Node.isBottom_mapValues embedding]

end MergeOp

namespace Node

/-- Merging embedded nodes is embedding the merge. -/
theorem mapValues_merge
    (embedding : Embedding embed) (sinks : ∀ value, embed (sinkW value) = sinkV (embed value))
    (op : MergeOp) (inherited : Inherited W) {left right : Node W}
    (leftOrdered : left.Ordered) (rightOrdered : right.Ordered) :
    (merge sinkW op inherited left right).mapValues embed =
      merge sinkV op (inherited.map embed) (left.mapValues embed) (right.mapValues embed) := by
  induction left, right using Node.induction₂ generalizing inherited with
  | step left right inductionHypothesis =>
      have leftEmbedded := Ordered.mapValues embed left leftOrdered
      have rightEmbedded := Ordered.mapValues embed right rightOrdered
      refine eq_of_child?_eq
        (Ordered.mapValues embed _ (Ordered.merge sinkW op _ _ _ leftOrdered rightOrdered))
        (Ordered.merge sinkV op _ _ _ leftEmbedded rightEmbedded) ?_ ?_
      · simp only [value_mapValues, value_merge, MergeOp.store_embed embedding]
      · intro label
        rw [child?_mapValues, child?_merge sinkW op inherited leftOrdered rightOrdered,
          child?_merge sinkV op _ leftEmbedded rightEmbedded,
          isSome_child?_mapValues, isSome_child?_mapValues]
        split
        · rename_i bound
          have mergedBelow := inductionHypothesis label (by simpa using bound)
            (op.inherit sinkW inherited left.value right.value)
            (leftOrdered.childOrBottom label) (rightOrdered.childOrBottom label)
          simp only [value_mapValues, childOrBottom_mapValues embedding.bottom,
            ← MergeOp.inherit_embed embedding sinks]
          unfold mergedChild?
          rw [MergeOp.branch_embed embedding, ← mergedBelow, nonBottom?_mapValues embedding]
          split <;> rfl
        · rfl

/-! ## Embedded comparisons and views -/

theorem shownAt_embed
    (embedding : Embedding embed) (inherited : W) (right : Option (Node W)) :
    embed (shownAt inherited right) =
      shownAt (embed inherited) (right.map (mapValues embed)) := by
  cases right with
  | none =>
      rfl
  | some node =>
      simp only [shownAt, embedding.join, Option.map_some, value_mapValues]

theorem leqUnder_mapValues
    (embedding : Embedding embed) (sinks : ∀ value, embed (sinkW value) = sinkV (embed value))
    (inherited : W) (left : Node W) (right : Option (Node W)) :
    leqUnder sinkV (embed inherited) (left.mapValues embed) (right.map (mapValues embed)) =
      leqUnder sinkW inherited left right := by
  induction left using Node.induction generalizing inherited right with
  | step value children inductionHypothesis =>
      have sameBelow (passed : W) :
          leqChildren sinkV (embed passed) (right.map (mapValues embed))
              (mapValuesOf embed children) =
            leqChildren sinkW passed right children := by
        rw [Bool.eq_iff_iff, leqChildren_iff, leqChildren_iff, mapValuesOf_eq_map,
          List.forall_mem_map]
        refine forall₂_congr fun entry member => ?_
        rw [← inductionHypothesis entry member]
        cases right with
        | none =>
            rfl
        | some node =>
            simp only [Option.map_some, Option.bind_some, child?_mapValues]
      have sameSunk := sinkIntoChild_embed embedding sinks Domain.bottom
        (shownAt inherited right)
      rw [shownAt_embed embedding, embedding.bottom] at sameSunk
      rw [mapValues, leqUnder_mk, leqUnder_mk, ← sameSunk, sameBelow,
        ← shownAt_embed embedding, embedding.leq]

theorem showFrom_mapValues
    (embedding : Embedding embed) (sinks : ∀ value, embed (sinkW value) = sinkV (embed value))
    (shown : W) (path : Path) (node : Node W) :
    (node.mapValues embed).showFrom sinkV (embed shown) path =
      embed (node.showFrom sinkW shown path) := by
  induction path generalizing shown node with
  | nil =>
      rfl
  | cons label path inductionHypothesis =>
      have passed := sinkIntoChild_embed embedding sinks Domain.bottom shown
      rw [embedding.bottom] at passed
      rw [showFrom, showFrom, childOrBottom_mapValues embedding.bottom, value_mapValues, ← passed,
        ← embedding.join]
      exact inductionHypothesis _ _

end Node

end Merges

/-! ## Trees that store values of the part -/

namespace Node

variable {Good : V → Prop}

/-- Every stored value is of a kind. -/
def Stores (Good : V → Prop) (node : Node V) : Prop :=
  ∀ stored ∈ node.nodes, Good stored.2

omit [Domain V] in
theorem mem_nodesOf {children : List (PathElement × Node V)} {stored : Path × V} :
    stored ∈ nodesOf children ↔
      ∃ entry ∈ children, ∃ below ∈ entry.2.nodes, (entry.1 :: below.1, below.2) = stored := by
  induction children with
  | nil =>
      simp [nodesOf]
  | cons entry rest inductionHypothesis =>
      simp [nodesOf, inductionHypothesis]

omit [Domain V] in
theorem stores_mk {value : V} {children : List (PathElement × Node V)} :
    (mk value children).Stores Good ↔
      Good value ∧ ∀ entry ∈ children, entry.2.Stores Good := by
  constructor
  · intro stores
    refine ⟨stores ([], value) List.mem_cons_self, ?_⟩
    intro entry member below belowMember
    exact stores (entry.1 :: below.1, below.2)
      (List.mem_cons_of_mem _ (mem_nodesOf.mpr ⟨entry, member, below, belowMember, rfl⟩))
  · rintro ⟨goodValue, goodChildren⟩ stored member
    rcases List.mem_cons.mp member with atRoot | inChildren
    · rw [atRoot]
      exact goodValue
    · obtain ⟨entry, entryMember, below, belowMember, rfl⟩ := mem_nodesOf.mp inChildren
      exact goodChildren entry entryMember below belowMember

omit [Domain V] in
theorem stores_mapValues_val (lifted : Node (Subtype Good)) :
    (lifted.mapValues Subtype.val).Stores Good := by
  induction lifted using Node.induction with
  | step value children inductionHypothesis =>
      rw [mapValues, mapValuesOf_eq_map]
      refine stores_mk.mpr ⟨value.2, ?_⟩
      rw [List.forall_mem_map]
      exact inductionHypothesis

omit [Domain V] in
theorem exists_mapValues_val {node : Node V} (stores : node.Stores Good) :
    ∃ lifted : Node (Subtype Good), lifted.mapValues Subtype.val = node := by
  induction node using Node.induction with
  | step value children inductionHypothesis =>
      obtain ⟨goodValue, goodChildren⟩ := stores_mk.mp stores
      have liftedChildren :
          ∃ lifted : List (PathElement × Node (Subtype Good)),
            mapValuesOf Subtype.val lifted = children := by
        clear stores
        induction children with
        | nil =>
            exact ⟨[], rfl⟩
        | cons entry rest restHypothesis =>
            obtain ⟨liftedRest, restEq⟩ := restHypothesis
              (fun other member => inductionHypothesis other (List.mem_cons_of_mem _ member))
              (fun other member => goodChildren other (List.mem_cons_of_mem _ member))
            obtain ⟨liftedNode, nodeEq⟩ := inductionHypothesis entry List.mem_cons_self
              (goodChildren entry List.mem_cons_self)
            exact ⟨(entry.1, liftedNode) :: liftedRest, by rw [mapValuesOf, nodeEq, restEq]⟩
      obtain ⟨lifted, childrenEq⟩ := liftedChildren
      exact ⟨.mk ⟨value, goodValue⟩ lifted, by rw [mapValues, childrenEq]⟩

omit [Domain W] [Domain V] in
theorem ordered_of_mapValues (change : W → V) {node : Node W} :
    (node.mapValues change).Ordered → node.Ordered := by
  induction node using Node.induction with
  | step value children inductionHypothesis =>
      intro ordered
      rw [mapValues, mapValuesOf_eq_map] at ordered
      refine .mk (List.pairwise_map.mp ordered.increasing) ?_
      intro entry member
      exact inductionHypothesis entry member
        (ordered.children (entry.1, entry.2.mapValues change) (List.mem_map_of_mem member))

end Node

namespace Tree

/-- A tree seen through a map of its values. -/
def embed (change : W → V) (tree : Tree W) : Tree V :=
  ⟨tree.node.mapValues change, Node.Ordered.mapValues change tree.node tree.ordered⟩

/-- Every stored value is of a kind. -/
def Stores (Good : V → Prop) (tree : Tree V) : Prop :=
  tree.node.Stores Good

instance (Good : V → Prop) [DecidablePred Good] : DecidablePred (Tree.Stores Good) := fun tree =>
  inferInstanceAs (Decidable (∀ stored ∈ tree.node.nodes, Good stored.2))

omit [Domain V] in
theorem exists_embed_val {Good : V → Prop} {tree : Tree V} (stores : tree.Stores Good) :
    ∃ lifted : Tree (Subtype Good), lifted.embed Subtype.val = tree := by
  obtain ⟨lifted, nodeEq⟩ := Node.exists_mapValues_val stores
  have ordered : lifted.Ordered := by
    apply Node.ordered_of_mapValues Subtype.val
    rw [nodeEq]
    exact tree.ordered
  exact ⟨⟨lifted, ordered⟩, ext_node nodeEq⟩

section Embedded

variable {change : W → V} {sinkW : W → W} {sinkV : V → V}

theorem embed_merge
    (embedding : Embedding change) (sinks : ∀ value, change (sinkW value) = sinkV (change value))
    (op : MergeOp) (left right : Tree W) :
    (left.merge sinkW op right).embed change =
      (left.embed change).merge sinkV op (right.embed change) := by
  have nothing : (Inherited.nothing : Inherited W).map change = .nothing := by
    simp [Inherited.map, Inherited.nothing, embedding.bottom]
  have merged := Node.mapValues_merge embedding sinks op .nothing left.ordered right.ordered
  rw [nothing] at merged
  exact ext_node merged

/-- A merge stores values of a kind that the lattice operations and the sink do not lead out of. -/
theorem stores_merge {Good : V → Prop} [ClosedDomain Good]
    (sinks : ∀ value, Good value → Good (sinkV value)) (op : MergeOp) {left right : Tree V}
    (leftStores : left.Stores Good) (rightStores : right.Stores Good) :
    (left.merge sinkV op right).Stores Good := by
  obtain ⟨liftedLeft, rfl⟩ := exists_embed_val leftStores
  obtain ⟨liftedRight, rfl⟩ := exists_embed_val rightStores
  let sink (value : Subtype Good) : Subtype Good := ⟨sinkV value.1, sinks value.1 value.2⟩
  have sinkVal (value : Subtype Good) : (sink value).val = sinkV value.val := rfl
  rw [← embed_merge (embedding_val Good) sinkVal]
  exact Node.stores_mapValues_val _

theorem leq_embed
    (embedding : Embedding change) (sinks : ∀ value, change (sinkW value) = sinkV (change value))
    (left right : Tree W) :
    (left.embed change).leq sinkV (right.embed change) = left.leq sinkW right := by
  have compared := Node.leqUnder_mapValues embedding sinks Domain.bottom left.node (some right.node)
  rw [embedding.bottom] at compared
  exact compared

theorem view_embed
    (embedding : Embedding change) (sinks : ∀ value, change (sinkW value) = sinkV (change value))
    (tree : Tree W) (path : Path) :
    (tree.embed change).view sinkV path = change (tree.view sinkW path) := by
  have shown := Node.showFrom_mapValues embedding sinks tree.node.value path tree.node
  rw [← Node.value_mapValues change tree.node] at shown
  exact shown

end Embedded

end Tree

end AliasTaint
