import AliasTaint.Proofs.Tree.Embedding
import AliasTaint.Proofs.Tree.Normal
import AliasTaint.Proofs.Tree.Stored
import AliasTaint.Proofs.Tree.Write

/-!
# Normal trees over a part of a domain

The values of a domain may be a lattice only as far as they are well-formed.  Trees that store such
values alone are embedded trees over a lawful domain.  The embedding keeps the normal form and commutes
with the operations, so the operations lead from normal trees of well-formed values to such trees.

A normal tree is known from the values it stores, since it has a node exactly where something is stored
at or below.  It stores something at a path exactly where it shows more than one step above.  Trees
that show the same therefore store something at the same paths, but not always the same: a node may
repeat some of what its ancestors show, as long as it does not repeat all of it.
-/

namespace AliasTaint

open Domain

variable {W V : Type} [Domain W] [Domain V]

namespace Node

/-! ## Trees by their stored values -/

/-- A child of a pruned node stores something, so a node that stores the same has that child. -/
theorem Pruned.isSome_child?_of_stored_eq (nothing : Domain.isBottom (Domain.bottom : V))
    {node other child : Node V} (pruned : node.Pruned)
    {label : PathElement}
    (sameStored : ∀ path, node.stored (label :: path) = other.stored (label :: path))
    (found : node.child? label = some child) :
    (other.child? label).isSome := by
  obtain ⟨childFilled, childPruned⟩ := pruned_iff.mp pruned label child found
  obtain ⟨path, filled⟩ := childPruned.exists_stored_filled childFilled
  have otherFilled : Domain.isBottom (other.stored (label :: path)) = false := by
    rw [← sameStored, stored, childOrBottom_of_child? found]
    exact filled
  exact isSome_child?_of_stored nothing otherFilled

theorem pruned_bottom : (bottom : Node V).Pruned :=
  pruned_iff.mpr nofun

theorem Pruned.childOrBottom {node : Node V} (pruned : node.Pruned) (label : PathElement) :
    (node.childOrBottom label).Pruned := by
  cases found : node.child? label with
  | none =>
      rw [Node.childOrBottom, found]
      exact pruned_bottom
  | some child =>
      rw [childOrBottom_of_child? found]
      exact (pruned_iff.mp pruned label child found).2

/-- Pruned nodes that store the same values are equal. -/
theorem Pruned.eq_of_stored_eq (nothing : Domain.isBottom (Domain.bottom : V))
    {left right : Node V} (leftOrdered : left.Ordered) (rightOrdered : right.Ordered)
    (leftPruned : left.Pruned) (rightPruned : right.Pruned)
    (sameStored : ∀ path, left.stored path = right.stored path) :
    left = right := by
  induction left, right using Node.induction₂ with
  | step left right inductionHypothesis =>
      refine eq_of_child?_eq leftOrdered rightOrdered (sameStored []) ?_
      intro label
      cases leftFound : left.child? label with
      | none =>
          cases rightFound : right.child? label with
          | none =>
              rfl
          | some child =>
              have leftBound := rightPruned.isSome_child?_of_stored_eq nothing
                (fun path => (sameStored (label :: path)).symm) rightFound
              rw [leftFound] at leftBound
              exact nomatch leftBound
      | some child =>
          obtain ⟨other, rightFound⟩ := Option.isSome_iff_exists.mp
            (leftPruned.isSome_child?_of_stored_eq nothing
              (fun path => sameStored (label :: path)) leftFound)
          have sameChild := inductionHypothesis label (Or.inl (by rw [leftFound]; rfl))
            (leftOrdered.childOrBottom label) (rightOrdered.childOrBottom label)
            (leftPruned.childOrBottom label) (rightPruned.childOrBottom label)
            fun path => sameStored (label :: path)
          rw [childOrBottom_of_child? leftFound, childOrBottom_of_child? rightFound] at sameChild
          rw [rightFound, sameChild]

theorem stored_eq_descend? (path : Path) (node : Node V) :
    node.stored path = ((node.descend? path).map value).getD Domain.bottom := by
  induction path generalizing node with
  | nil =>
      rfl
  | cons label path inductionHypothesis =>
      rw [stored, descend?]
      cases found : node.child? label with
      | none =>
          rw [childOrBottom, found, Option.getD_none, stored_bottom]
          rfl
      | some child =>
          rw [childOrBottom_of_child? found]
          exact inductionHypothesis child

/-! ## What is stored and what is shown -/

section Shown

variable {Good : V → Prop} [SemilatticeOn Good]

theorem good_sunkFrom {node : Node V} (stores : node.Stores Good)
    {inherited : V} (goodInherited : Good inherited) (path : Path) :
    Good (node.sunkFrom id inherited path) := by
  induction path generalizing node inherited with
  | nil =>
      exact goodInherited
  | cons label path inductionHypothesis =>
      exact inductionHypothesis (stores.childOrBottom label)
        (good_sinkIntoChild goodInherited stores.value)

theorem inside_sunkFrom_concat_iff {Inside : V → Prop} (ideal : Ideal Good Inside)
    {node : Node V} (stores : node.Stores Good)
    {inherited : V} (goodInherited : Good inherited) (path : Path) (label : PathElement) :
    Inside (node.sunkFrom id inherited (path ++ [label])) ↔
      Inside inherited ∧ node.AllAlong Inside path := by
  induction path generalizing node inherited with
  | nil =>
      exact inside_sinkIntoChild_iff ideal goodInherited stores.value
  | cons first path inductionHypothesis =>
      rw [List.cons_append, sunkFrom, AllAlong, ← and_assoc,
        ← inside_sinkIntoChild_iff ideal goodInherited stores.value]
      exact inductionHypothesis (stores.childOrBottom first)
        (good_sinkIntoChild goodInherited stores.value)

/-- What the ancestors sink into a node is what is shown one step above it. -/
theorem sunkFrom_concat_eq_view {node : Node V} (stores : node.Stores Good)
    (path : Path) (label : PathElement) :
    node.sunkFrom id Domain.bottom (path ++ [label]) = node.view id path := by
  refine SemilatticeOn.eq_of_leq_iff (good_sunkFrom stores JoinClosed.bottom _)
    (good_view stores path) ?_
  intro upper goodUpper
  have ideal := ideal_leq goodUpper
  rw [inside_sunkFrom_concat_iff ideal stores JoinClosed.bottom, inside_view_iff ideal stores]
  exact and_iff_right ideal.bottom

theorem view_concat_eq_join {node : Node V} (stores : node.Stores Good)
    (path : Path) (label : PathElement) :
    node.view id (path ++ [label]) = join (node.view id path) (node.stored (path ++ [label])) := by
  have goodStored := Stores.stored JoinClosed.bottom stores (path ++ [label])
  refine SemilatticeOn.eq_of_leq_iff (good_view stores _)
    (JoinClosed.join (good_view stores path) goodStored) ?_
  intro upper goodUpper
  have ideal := ideal_leq goodUpper
  rw [ideal.join_iff (good_view stores path) goodStored, inside_view_iff ideal stores,
    inside_view_iff ideal stores, allAlong_iff_stored, allAlong_iff_stored]
  simp only [List.prefix_concat_iff, or_imp, forall_and, forall_eq]
  exact and_comm

/-- A normal node stores something at a path exactly where it shows more than one step above. -/
theorem NormalUnder.isBottom_stored_concat_iff {node : Node V} (stores : node.Stores Good)
    (normal : node.NormalUnder id Domain.bottom) (path : Path) (label : PathElement) :
    Domain.isBottom (node.stored (path ++ [label])) ↔
      node.view id (path ++ [label]) = node.view id path := by
  have goodStored := Stores.stored JoinClosed.bottom stores (path ++ [label])
  constructor
  · intro isNothing
    rw [view_concat_eq_join stores, (SemilatticeOn.isBottom_iff goodStored).mp isNothing]
    exact SemilatticeOn.join_bottom (good_view stores path)
  · intro sameShown
    have covered : Domain.leq (node.stored (path ++ [label])) (node.view id path) := by
      rw [view_concat_eq_join stores] at sameShown
      have joined := (SemilatticeOn.leq_joins (good_view stores path) goodStored).2
      rwa [sameShown] at joined
    cases reached : node.descend? (path ++ [label]) with
    | none =>
        rw [stored_eq_descend?, reached]
        exact (SemilatticeOn.isBottom_iff (JoinClosed.bottom : Good Domain.bottom)).mpr rfl
    | some below =>
        have isStored : node.stored (path ++ [label]) = below.value := by
          rw [stored_eq_descend?, reached]
          rfl
        have fresh := (normal (path ++ [label]) below reached).fresh
        rw [sunkFrom_concat_eq_view stores, ← isStored, covered] at fresh
        cases filled : Domain.isBottom (node.stored (path ++ [label])) with
        | true =>
            rfl
        | false =>
            exact nomatch fresh filled

/-- Normal nodes that show the same store something at the same paths. -/
theorem isBottom_stored_eq_of_views {left right : Node V}
    (leftStores : left.Stores Good) (rightStores : right.Stores Good)
    (leftNormal : left.NormalUnder id Domain.bottom)
    (rightNormal : right.NormalUnder id Domain.bottom)
    (sameViews : ∀ path, left.view id path = right.view id path) (path : Path) :
    Domain.isBottom (left.stored path) = Domain.isBottom (right.stored path) := by
  rcases List.eq_nil_or_concat path with rfl | ⟨above, label, rfl⟩
  · exact congrArg Domain.isBottom (sameViews [])
  · rw [List.concat_eq_append, Bool.eq_iff_iff, leftNormal.isBottom_stored_concat_iff leftStores,
      rightNormal.isBottom_stored_concat_iff rightStores, sameViews, sameViews]

end Shown

/-! ## Embedded operations -/

section Embedded

variable {embed : W → V} {sinkW : W → W} {sinkV : V → V}

omit [Domain W] [Domain V] in
theorem descend?_mapValues (path : Path) (node : Node W) :
    (node.mapValues embed).descend? path = (node.descend? path).map (mapValues embed) := by
  induction path generalizing node with
  | nil =>
      rfl
  | cons label path inductionHypothesis =>
      rw [descend?, descend?, child?_mapValues]
      cases node.child? label with
      | none =>
          rfl
      | some child =>
          exact inductionHypothesis child

theorem locallyNormal_mapValues_iff (embedding : Embedding embed) {inherited : W} {node : Node W} :
    (node.mapValues embed).LocallyNormal (embed inherited) ↔ node.LocallyNormal inherited := by
  constructor
  · intro normal
    refine ⟨?_, ?_⟩
    · have fresh := normal.fresh
      rwa [value_mapValues, embedding.isBottom, embedding.leq] at fresh
    · intro label child found
      have foundEmbedded : (node.mapValues embed).child? label = some (child.mapValues embed) := by
        rw [child?_mapValues, found]
        rfl
      have filled := normal.filled label (child.mapValues embed) foundEmbedded
      rwa [isBottom_mapValues embedding] at filled
  · intro normal
    refine ⟨?_, ?_⟩
    · rw [value_mapValues, embedding.isBottom, embedding.leq]
      exact normal.fresh
    · intro label child found
      rw [child?_mapValues] at found
      obtain ⟨original, originalFound, rfl⟩ := Option.map_eq_some_iff.mp found
      rw [isBottom_mapValues embedding]
      exact normal.filled label original originalFound

theorem mapValues_rawRead (embedding : Embedding embed) (node : Node W) (path : Path) :
    (node.rawRead path).mapValues embed = (node.mapValues embed).rawRead path := by
  rw [rawRead, rawRead, descend?_mapValues]
  cases node.descend? path with
  | none =>
      exact mapValues_bottom embedding.bottom
  | some below =>
      rfl

theorem mapValues_withChild (embedding : Embedding embed) {node child : Node W}
    (ordered : node.Ordered) (childOrdered : child.Ordered) (label : PathElement) :
    (node.withChild label child).mapValues embed =
      (node.mapValues embed).withChild label (child.mapValues embed) := by
  refine eq_of_child?_eq
    (Ordered.mapValues embed _ (ordered.withChild label childOrdered))
    ((Ordered.mapValues embed _ ordered).withChild label (Ordered.mapValues embed _ childOrdered))
    ?_ ?_
  · rw [value_mapValues, value_withChild, value_withChild, value_mapValues]
  · intro other
    rw [child?_mapValues, child?_withChild, child?_withChild, child?_mapValues,
      nonBottom?_mapValues embedding]
    split <;> rfl

variable (embedding : Embedding embed) (sinks : ∀ value, embed (sinkW value) = sinkV (embed value))

include embedding sinks

theorem sunkFrom_mapValues (path : Path) (inherited : W) (node : Node W) :
    (node.mapValues embed).sunkFrom sinkV (embed inherited) path =
      embed (node.sunkFrom sinkW inherited path) := by
  induction path generalizing inherited node with
  | nil =>
      rfl
  | cons label path inductionHypothesis =>
      rw [sunkFrom, sunkFrom, value_mapValues, childOrBottom_mapValues embedding.bottom,
        ← sinkIntoChild_embed embedding sinks]
      exact inductionHypothesis _ _

theorem normalUnder_mapValues_iff (inherited : W) (node : Node W) :
    (node.mapValues embed).NormalUnder sinkV (embed inherited) ↔
      node.NormalUnder sinkW inherited := by
  constructor
  · intro normal path below reached
    have here := normal path (below.mapValues embed) (by rw [descend?_mapValues, reached]; rfl)
    rw [sunkFrom_mapValues embedding sinks] at here
    exact (locallyNormal_mapValues_iff embedding).mp here
  · intro normal path below reached
    rw [descend?_mapValues] at reached
    obtain ⟨original, originalReached, rfl⟩ := Option.map_eq_some_iff.mp reached
    rw [sunkFrom_mapValues embedding sinks]
    exact (locallyNormal_mapValues_iff embedding).mpr (normal path original originalReached)

theorem mapValues_normalize {node : Node W} (ordered : node.Ordered) :
    (node.normalize sinkW).mapValues embed = (node.mapValues embed).normalize sinkV := by
  have merged := mapValues_merge embedding sinks .normalize .nothing ordered ordered_bottom
  have nothing : (Inherited.nothing : Inherited W).map embed = .nothing := by
    simp [Inherited.map, Inherited.nothing, embedding.bottom]
  rwa [nothing, mapValues_bottom embedding.bottom] at merged

theorem mapValues_readUnder (path : Path) (inherited : W) {node : Node W} (ordered : node.Ordered) :
    (node.readUnder sinkW inherited path).mapValues embed =
      (node.mapValues embed).readUnder sinkV (embed inherited) path := by
  induction path generalizing inherited node with
  | nil =>
      rw [readUnder, readUnder, embedding.isBottom]
      split
      · rfl
      · have joined : (mk (join node.value inherited) node.children).mapValues embed =
            mk (join (node.mapValues embed).value (embed inherited))
              (node.mapValues embed).children := by
          cases node
          rw [mapValues, embedding.join]
          rfl
        rw [← joined]
        exact mapValues_normalize embedding sinks (.mk ordered.increasing ordered.children)
  | cons label path inductionHypothesis =>
      rw [readUnder, readUnder, child?_mapValues, value_mapValues,
        ← sinkIntoChild_embed embedding sinks]
      cases found : node.child? label with
      | none =>
          rfl
      | some child =>
          exact inductionHypothesis _ (ordered.child? found)

theorem mapValues_graftUnder (kind : UpdateKind) {tree : Node W} (treeOrdered : tree.Ordered)
    (path : Path) (inherited : W) {node : Node W} (ordered : node.Ordered) :
    (graftUnder sinkW kind tree inherited path node).mapValues embed =
      graftUnder sinkV kind (tree.mapValues embed) (embed inherited) path
        (node.mapValues embed) := by
  induction path generalizing inherited node with
  | nil =>
      have inResult : (Inherited.inResult inherited).map embed = .inResult (embed inherited) := by
        simp [Inherited.map, Inherited.inResult, embedding.bottom]
      cases kind with
      | strong =>
          have merged := mapValues_merge embedding sinks .join (.inResult inherited)
            ordered_bottom treeOrdered
          rwa [inResult, mapValues_bottom embedding.bottom] at merged
      | weak =>
          have merged := mapValues_merge embedding sinks .join (.inResult inherited)
            ordered treeOrdered
          rwa [inResult] at merged
  | cons label path inductionHypothesis =>
      have childOrdered := ordered.childOrBottom label
      rw [graftUnder, graftUnder, value_mapValues, childOrBottom_mapValues embedding.bottom,
        ← sinkIntoChild_embed embedding sinks, ← inductionHypothesis _ childOrdered]
      exact mapValues_withChild embedding ordered
        (Ordered.graftUnder sinkW kind treeOrdered path _ _ childOrdered) label

end Embedded

end Node

/-! ## Operations on normal trees of well-formed values -/

namespace Tree

/-- All stored values are well-formed, and the tree is normal where values sink unchanged. -/
structure NormalOn (Good : V → Prop) (tree : Tree V) : Prop where
  stores : tree.Stores Good
  normal : tree.Normal id

section NormalOn

variable {Good : V → Prop} [LatticeOn Good]

omit [Domain V] [LatticeOn Good] in
theorem val_id (value : Subtype Good) : (id value).val = id value.val :=
  rfl

theorem normal_embed_iff {lifted : Tree (Subtype Good)} :
    (lifted.embed Subtype.val).Normal id ↔ lifted.Normal id :=
  Node.normalUnder_mapValues_iff (embedding_val Good) val_id Domain.bottom lifted.node

theorem Normal.normalOn_embed {lifted : Tree (Subtype Good)} (normal : lifted.Normal id) :
    (lifted.embed Subtype.val).NormalOn Good :=
  ⟨Node.stores_mapValues_val lifted.node, normal_embed_iff.mpr normal⟩

/-- Normal trees of well-formed values are embedded normal trees. -/
theorem NormalOn.exists_lifted {tree : Tree V} (normalOn : tree.NormalOn Good) :
    ∃ lifted : Tree (Subtype Good), lifted.Normal id ∧ lifted.embed Subtype.val = tree := by
  obtain ⟨lifted, rfl⟩ := exists_embed_val normalOn.stores
  exact ⟨lifted, normal_embed_iff.mp normalOn.normal, rfl⟩

omit [LatticeOn Good] in
theorem monotone_id : MonotoneMap (id : V → V) := fun covered => covered

theorem normalOn_leaf {value : V} (good : Good value) : (leaf value).NormalOn Good :=
  Normal.normalOn_embed (normal_leaf (⟨value, good⟩ : Subtype Good))

theorem normalOn_normalize {tree : Tree V} (stores : tree.Stores Good) :
    (tree.normalize id).NormalOn Good := by
  obtain ⟨lifted, rfl⟩ := exists_embed_val stores
  have embedded : (lifted.normalize id).embed Subtype.val =
      (lifted.embed Subtype.val).normalize id :=
    ext_node (Node.mapValues_normalize (embedding_val Good) val_id lifted.ordered)
  rw [← embedded]
  exact (normal_normalize monotone_id lifted).normalOn_embed

variable {tree left right : Tree V}

theorem NormalOn.merge (leftNormal : left.NormalOn Good) (rightNormal : right.NormalOn Good)
    (op : MergeOp) : (left.merge id op right).NormalOn Good := by
  obtain ⟨liftedLeft, liftedLeftNormal, rfl⟩ := leftNormal.exists_lifted
  obtain ⟨liftedRight, liftedRightNormal, rfl⟩ := rightNormal.exists_lifted
  rw [← embed_merge (embedding_val Good) val_id]
  exact (liftedLeftNormal.merge monotone_id op liftedRightNormal).normalOn_embed

theorem NormalOn.writeTree (normalOn : tree.NormalOn Good) {grafted : Tree V}
    (graftedNormal : grafted.NormalOn Good) (path : Path) (kind : UpdateKind) :
    (tree.writeTree id path grafted kind).NormalOn Good := by
  obtain ⟨lifted, liftedNormal, rfl⟩ := normalOn.exists_lifted
  obtain ⟨liftedGraft, liftedGraftNormal, rfl⟩ := graftedNormal.exists_lifted
  have embedded : (lifted.writeTree id path liftedGraft kind).embed Subtype.val =
      (lifted.embed Subtype.val).writeTree id path (liftedGraft.embed Subtype.val) kind :=
    ext_node (Node.mapValues_graftUnder (embedding_val Good) val_id kind
      liftedGraft.ordered path Domain.bottom lifted.ordered)
  rw [← embedded]
  exact (liftedNormal.writeTree monotone_id liftedGraftNormal path kind).normalOn_embed

theorem NormalOn.read (normalOn : tree.NormalOn Good) (path : Path) :
    (tree.read id path).NormalOn Good := by
  obtain ⟨lifted, liftedNormal, rfl⟩ := normalOn.exists_lifted
  have embedded : (lifted.read id path).embed Subtype.val =
      (lifted.embed Subtype.val).read id path :=
    ext_node (Node.mapValues_readUnder (embedding_val Good) val_id path Domain.bottom
      lifted.ordered)
  rw [← embedded]
  exact Normal.normalOn_embed
    (Node.NormalUnder.readUnder monotone_id lifted.ordered liftedNormal path)

theorem NormalOn.rawRead (normalOn : tree.NormalOn Good) (path : Path) :
    (tree.rawRead path).NormalOn Good := by
  obtain ⟨lifted, liftedNormal, rfl⟩ := normalOn.exists_lifted
  have embedded : (lifted.rawRead path).embed Subtype.val =
      (lifted.embed Subtype.val).rawRead path :=
    ext_node (Node.mapValues_rawRead (embedding_val Good) lifted.node path)
  rw [← embedded]
  exact Normal.normalOn_embed (Node.NormalUnder.rawRead monotone_id liftedNormal path)

end NormalOn

end Tree

end AliasTaint
