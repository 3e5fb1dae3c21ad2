import AliasTaint.Proofs.Taint.Widen
import AliasTaint.Proofs.Tree.NormalOn
import Mathlib.Data.List.Induction

/-!
# Equal taint trees

Trees are equal in the order if each covers the other, which is to say that they show the same at
every path.  The normal form does not make such trees the same tree.  It drops a stored value only if
the ancestors show all of it, so a node may still repeat the frame of a kind that they show, and
whether it does depends on the order in which the tree was built.

This is all that can differ: trees that show the same store something at the same paths, and store the
same frames of all kinds that are not shown one step above.
-/

namespace AliasTaint

open Domain

variable {heuristics : Heuristics}

/-! ## Taint below other taint -/

namespace Taint

/-- Taint joined to the same taint gives the same only if it has the same frames of the other kinds. -/
theorem eq_of_join_eq {above left right : Taint heuristics}
    (aboveFormed : above.WellFormed) (leftFormed : left.WellFormed) (rightFormed : right.WellFormed)
    (limited : above.frames.isTop = false)
    (sameJoin : Domain.join above left = Domain.join above right)
    (sameRepeated : ∀ kind, above.has kind → left.frame kind = right.frame kind) :
    left = right := by
  obtain ⟨aboveFrames⟩ := above
  obtain ⟨leftFrames⟩ := left
  obtain ⟨rightFrames⟩ := right
  have sameFrames : Partition.upper Domain.join aboveFrames leftFrames =
      Partition.upper Domain.join aboveFrames rightFrames := congrArg frames sameJoin
  cases aboveFrames with
  | top =>
      exact nomatch limited
  | sparse aboveMap =>
      cases leftFrames with
      | top =>
          cases rightFrames with
          | top =>
              rfl
          | sparse rightMap =>
              exact nomatch sameFrames
      | sparse leftMap =>
          cases rightFrames with
          | top =>
              exact nomatch sameFrames
          | sparse rightMap =>
              have sameMaps : aboveMap.combine Domain.join leftMap =
                  aboveMap.combine Domain.join rightMap := Partition.sparse.inj sameFrames
              have sameValues (kind : Kind) : leftMap.valueAt kind = rightMap.valueAt kind := by
                have sameCombined := congrArg (fun map => map.valueAt kind) sameMaps
                simp only [SortedMap.Stores.valueAt_combine aboveFormed leftFormed,
                  SortedMap.Stores.valueAt_combine aboveFormed rightFormed] at sameCombined
                cases found : aboveMap.get? kind with
                | some frame =>
                    exact sameRepeated kind (Option.isSome_iff_exists.mpr ⟨frame, found⟩)
                | none =>
                    have nothing : aboveMap.valueAt kind = Domain.bottom := by
                      rw [SortedMap.valueAt, found, Option.getD_none]
                    rwa [nothing,
                      SemilatticeOn.bottom_join (SortedMap.Stores.valueAt leftFormed kind),
                      SemilatticeOn.bottom_join (SortedMap.Stores.valueAt rightFormed kind)]
                      at sameCombined
              rw [SortedMap.Stores.ext leftFormed rightFormed sameValues]

theorem join_eq_of_isTop {above : Taint heuristics} (unlimited : above.frames.isTop)
    (taint : Taint heuristics) : Domain.join above taint = above := by
  obtain ⟨frames⟩ := above
  cases frames with
  | top =>
      rfl
  | sparse map =>
      exact nomatch unlimited

end Taint

namespace TaintTree

/-! ## Trees that operations produce -/

/-- The trees that the operations make from well-formed taint. -/
inductive Produced : TaintTree heuristics → Prop where
  | leaf {taint : Taint heuristics} (formed : taint.WellFormed) : Produced (.leaf taint)
  | ofEdges {edges : List (Path × Taint heuristics)}
      (formed : ∀ edge ∈ edges, edge.2.WellFormed) : Produced (.ofEdges edges)
  | write {tree : TaintTree heuristics} {taint : Taint heuristics}
      (produced : Produced tree) (path : Path) (formed : taint.WellFormed) (kind : UpdateKind) :
      Produced (tree.write path taint kind)
  | writeTree {tree grafted : TaintTree heuristics}
      (produced : Produced tree) (path : Path) (graftedProduced : Produced grafted)
      (kind : UpdateKind) : Produced (tree.writeTree path grafted kind)
  | transform {tree : TaintTree heuristics} {change : Taint heuristics → Taint heuristics}
      (produced : Produced tree) (keeps : ∀ taint, taint.WellFormed → (change taint).WellFormed) :
      Produced (tree.transform change)
  | collapseDeeperThan {tree : TaintTree heuristics} (produced : Produced tree) (height : Nat) :
      Produced (tree.collapseDeeperThan height)
  | cross {tree : TaintTree heuristics} {edge : EdgeProperties heuristics}
      (produced : Produced tree) (formed : edge.WellFormed) : Produced (tree.cross edge)
  | join {left right : TaintTree heuristics}
      (leftProduced : Produced left) (rightProduced : Produced right) : Produced (left.join right)
  | widen {left right : TaintTree heuristics}
      (leftProduced : Produced left) (rightProduced : Produced right) : Produced (left.widen right)
  | meet {left right : TaintTree heuristics}
      (leftProduced : Produced left) (rightProduced : Produced right) : Produced (left.meet right)
  | narrow {left right : TaintTree heuristics}
      (leftProduced : Produced left) (rightProduced : Produced right) : Produced (left.narrow right)
  | read {tree : TaintTree heuristics} (produced : Produced tree) (path : Path) :
      Produced (tree.read path)
  | rawRead {tree : TaintTree heuristics} (produced : Produced tree) (path : Path) :
      Produced (tree.rawRead path)
  | readLongest {tree : TaintTree heuristics} (produced : Produced tree) (path : Path) :
      Produced (tree.readLongest path).2
  | rawReadLongest {tree : TaintTree heuristics} (produced : Produced tree) (path : Path) :
      Produced (tree.rawReadLongest path).2

/-- All stored taint is well-formed, and the tree is normal. -/
def Normal (tree : TaintTree heuristics) : Prop :=
  tree.tree.NormalOn Taint.WellFormed

theorem Normal.wellFormed {tree : TaintTree heuristics} (normal : tree.Normal) : tree.WellFormed :=
  normal.stores

theorem normal_leaf {taint : Taint heuristics} (formed : taint.WellFormed) : (leaf taint).Normal :=
  Tree.normalOn_leaf formed

theorem Normal.writeTree {tree grafted : TaintTree heuristics} (normal : tree.Normal)
    (graftedNormal : grafted.Normal) (path : Path) (kind : UpdateKind) :
    (tree.writeTree path grafted kind).Normal :=
  Tree.NormalOn.writeTree normal graftedNormal path kind

theorem ofEdges_concat (edges : List (Path × Taint heuristics)) (edge : Path × Taint heuristics) :
    ofEdges (edges ++ [edge]) = (ofEdges edges).writeTree edge.1 (leaf edge.2) .weak := by
  simp only [ofEdges, Tree.ofEdges, List.foldl_append, List.foldl_cons, List.foldl_nil]
  rfl

theorem normal_ofEdges {edges : List (Path × Taint heuristics)}
    (formed : ∀ edge ∈ edges, edge.2.WellFormed) : (ofEdges edges).Normal := by
  induction edges using List.reverseRecOn with
  | nil =>
      exact normal_leaf (JoinClosed.bottom : Taint.WellFormed Domain.bottom)
  | append_singleton edges edge inductionHypothesis =>
      obtain ⟨restFormed, edgeFormed⟩ := List.forall_mem_append.mp formed
      rw [ofEdges_concat]
      exact (inductionHypothesis restFormed).writeTree
        (normal_leaf (edgeFormed edge (List.mem_singleton_self edge))) edge.1 .weak

theorem Normal.transform {tree : TaintTree heuristics} (normal : tree.Normal)
    {change : Taint heuristics → Taint heuristics}
    (keeps : ∀ taint, taint.WellFormed → (change taint).WellFormed) :
    (tree.transform change).Normal :=
  Tree.normalOn_normalize (Node.Stores.mapValues (fun {_} => keeps _) normal.stores)

theorem Normal.collapseDeeperThan {tree : TaintTree heuristics} (normal : tree.Normal)
    (height : Nat) : (tree.collapseDeeperThan height).Normal := by
  have flattenedStores : Tree.Stores Taint.WellFormed
      ⟨tree.tree.node.flattenAt markCollapsed height,
        Node.Ordered.flattenAt markCollapsed _ height tree.tree.ordered⟩ :=
    Node.Stores.flattenAt joinMapOn_mark normal.stores height
  exact Tree.normalOn_normalize flattenedStores

theorem Normal.join {left right : TaintTree heuristics}
    (leftNormal : left.Normal) (rightNormal : right.Normal) : (left.join right).Normal :=
  Tree.NormalOn.merge leftNormal rightNormal .join

theorem Normal.widen {left right : TaintTree heuristics}
    (leftNormal : left.Normal) (rightNormal : right.Normal) : (left.widen right).Normal := by
  rw [widen_eq]
  split
  · exact (leftNormal.join rightNormal).collapseDeeperThan _
  · exact leftNormal.join rightNormal

theorem Normal.cross {tree : TaintTree heuristics} (normal : tree.Normal)
    {edge : EdgeProperties heuristics} (formed : edge.WellFormed) : (tree.cross edge).Normal := by
  have collapsed : (tree.collapsedAt edge.collapseDepth).Normal := by
    unfold collapsedAt
    split
    · exact normal.collapseDeeperThan _
    · exact normal
  have stamps : JoinMapOn (@Taint.WellFormed heuristics) Taint.WellFormed edge.stamp :=
    EdgeProperties.joinMapOn_stamp (FeatureSet.admits_of_wellFormed formed.features)
  rw [cross_eq]
  split
  · exact collapsed
  · exact collapsed.transform fun _ => stamps.good

/-- All trees that operations make from well-formed taint are normal. -/
theorem Produced.normal {tree : TaintTree heuristics} (produced : tree.Produced) : tree.Normal := by
  induction produced with
  | leaf formed =>
      exact normal_leaf formed
  | ofEdges formed =>
      exact normal_ofEdges formed
  | write _ path formed kind normal =>
      exact normal.writeTree (normal_leaf formed) path kind
  | writeTree _ path _ kind normal graftedNormal =>
      exact normal.writeTree graftedNormal path kind
  | transform _ keeps normal =>
      exact normal.transform keeps
  | collapseDeeperThan _ height normal =>
      exact normal.collapseDeeperThan height
  | cross _ formed normal =>
      exact normal.cross formed
  | join _ _ leftNormal rightNormal =>
      exact leftNormal.join rightNormal
  | widen _ _ leftNormal rightNormal =>
      exact leftNormal.widen rightNormal
  | meet _ _ leftNormal rightNormal =>
      exact Tree.NormalOn.merge leftNormal rightNormal .meet
  | narrow _ _ leftNormal rightNormal =>
      exact Tree.NormalOn.merge leftNormal rightNormal .narrow
  | read _ path normal =>
      exact Tree.NormalOn.read normal path
  | rawRead _ path normal =>
      exact Tree.NormalOn.rawRead normal path
  | readLongest _ path normal =>
      exact Tree.NormalOn.read normal _
  | rawReadLongest _ path normal =>
      exact Tree.NormalOn.rawRead normal _

/-! ## Equality in the order -/

/-- Wherever a kind is shown one step above, both trees store the same frame of it. -/
def RepeatsAlike (left right : TaintTree heuristics) : Prop :=
  ∀ path label kind, (left.view path).has kind →
    (left.stored (path ++ [label])).frame kind = (right.stored (path ++ [label])).frame kind

/-- Trees that show the same and repeat the same frames store the same. -/
theorem stored_eq_of_repeatsAlike {left right : TaintTree heuristics}
    (leftNormal : left.Normal) (rightNormal : right.Normal)
    (sameViews : ∀ path, left.view path = right.view path) (alike : left.RepeatsAlike right)
    (path : Path) : left.stored path = right.stored path := by
  have leftStored := leftNormal.wellFormed.stored
  have rightStored := rightNormal.wellFormed.stored
  rcases List.eq_nil_or_concat path with rfl | ⟨above, label, rfl⟩
  · exact sameViews []
  · rw [List.concat_eq_append]
    have leftJoin : left.view (above ++ [label]) =
        Domain.join (left.view above) (left.stored (above ++ [label])) :=
      Node.view_concat_eq_join leftNormal.stores above label
    have rightJoin : right.view (above ++ [label]) =
        Domain.join (right.view above) (right.stored (above ++ [label])) :=
      Node.view_concat_eq_join rightNormal.stores above label
    cases unlimited : (left.view above).frames.isTop with
    | false =>
        refine Taint.eq_of_join_eq (good_view leftNormal.stores above)
          (leftStored _) (rightStored _) unlimited ?_ (alike above label)
        rw [← leftJoin, sameViews, rightJoin, sameViews above]
    | true =>
        -- Below top taint nothing is stored.
        have nothing : Domain.isBottom (left.stored (above ++ [label])) :=
          (leftNormal.normal.isBottom_stored_concat_iff leftNormal.stores above label).mpr
            (leftJoin.trans (Taint.join_eq_of_isTop unlimited _))
        have sameFilled := Node.isBottom_stored_eq_of_views leftNormal.stores rightNormal.stores
          leftNormal.normal rightNormal.normal sameViews (above ++ [label])
        have rightNothing : Domain.isBottom (right.stored (above ++ [label])) :=
          sameFilled ▸ nothing
        rw [(SemilatticeOn.isBottom_iff (leftStored _)).mp nothing,
          (SemilatticeOn.isBottom_iff (rightStored _)).mp rightNothing]

theorem Normal.ext_stored {left right : TaintTree heuristics}
    (leftNormal : left.Normal) (rightNormal : right.Normal)
    (sameStored : ∀ path, left.stored path = right.stored path) : left = right := by
  have sameNode := Node.Pruned.eq_of_stored_eq rfl left.tree.ordered right.tree.ordered
    leftNormal.normal.pruned rightNormal.normal.pruned sameStored
  exact congrArg mk (Tree.ext_node sameNode)

theorem eq_iff_of_normal {left right : TaintTree heuristics}
    (leftNormal : left.Normal) (rightNormal : right.Normal) :
    left = right ↔ equals left right ∧ left.RepeatsAlike right := by
  rw [equals_iff_view_eq leftNormal.wellFormed rightNormal.wellFormed]
  constructor
  · rintro rfl
    exact ⟨fun _ => rfl, fun _ _ _ _ => rfl⟩
  · rintro ⟨sameViews, alike⟩
    exact leftNormal.ext_stored rightNormal
      (stored_eq_of_repeatsAlike leftNormal rightNormal sameViews alike)

/-! ## Orders of building -/

theorem inside_view_ofEdges_iff {Inside : Taint heuristics → Prop}
    (ideal : Ideal Taint.WellFormed Inside) {edges : List (Path × Taint heuristics)}
    (formed : ∀ edge ∈ edges, edge.2.WellFormed) (path : Path) :
    Inside ((ofEdges edges).view path) ↔ ∀ edge ∈ edges, edge.1 <+: path → Inside edge.2 := by
  induction edges using List.reverseRecOn with
  | nil =>
      exact iff_of_true (inside_view_bottom ideal path) nofun
  | append_singleton edges edge inductionHypothesis =>
      obtain ⟨restFormed, edgesFormed⟩ := List.forall_mem_append.mp formed
      have edgeFormed := edgesFormed edge (List.mem_singleton_self edge)
      have written : (∀ rest, edge.1 ++ rest = path → Inside ((leaf edge.2).view rest)) ↔
          (edge.1 <+: path → Inside edge.2) := by
        have shown (rest : Path) : (leaf edge.2).view rest = edge.2 :=
          Node.view_leaf edgeFormed rest
        simp only [shown]
        exact ⟨fun all ⟨rest, same⟩ => all rest same, fun leads rest same => leads ⟨rest, same⟩⟩
      rw [ofEdges_concat, inside_view_writeTree_weak_iff ideal
        (normal_ofEdges restFormed).wellFormed (normal_leaf edgeFormed).wellFormed,
        inductionHypothesis restFormed, written, List.forall_mem_append, List.forall_mem_singleton]

theorem view_ofEdges_perm {edges reordered : List (Path × Taint heuristics)}
    (isReordered : edges.Perm reordered) (formed : ∀ edge ∈ edges, edge.2.WellFormed)
    (path : Path) :
    (ofEdges edges).view path = (ofEdges reordered).view path := by
  have reorderedFormed : ∀ edge ∈ reordered, edge.2.WellFormed := fun edge member =>
    formed edge (isReordered.mem_iff.mpr member)
  refine SemilatticeOn.eq_of_leq_iff (good_view (normal_ofEdges formed).wellFormed path)
    (good_view (normal_ofEdges reorderedFormed).wellFormed path) ?_
  intro upper goodUpper
  have ideal := ideal_leq goodUpper
  rw [inside_view_ofEdges_iff ideal formed, inside_view_ofEdges_iff ideal reorderedFormed]
  simp only [isReordered.mem_iff]

theorem view_join_assoc {first second third : TaintTree heuristics}
    (firstFormed : first.WellFormed) (secondFormed : second.WellFormed)
    (thirdFormed : third.WellFormed) (path : Path) :
    ((first.join second).join third).view path = (first.join (second.join third)).view path := by
  have leftFormed := stores_join firstFormed secondFormed
  have rightFormed := stores_join secondFormed thirdFormed
  refine SemilatticeOn.eq_of_leq_iff (good_view (stores_join leftFormed thirdFormed) path)
    (good_view (stores_join firstFormed rightFormed) path) ?_
  intro upper goodUpper
  have ideal := ideal_leq goodUpper
  rw [inside_view_join_iff ideal leftFormed thirdFormed,
    inside_view_join_iff ideal firstFormed secondFormed,
    inside_view_join_iff ideal firstFormed rightFormed,
    inside_view_join_iff ideal secondFormed thirdFormed, and_assoc]

/-- Trees that operations produce are equal in the order exactly if they show the same at every path,
and then they store something at the same paths.  They are the same tree exactly if they are equal in
the order and, besides, store the same frames of the kinds that are shown above.  The order of the
edges that a tree is built from, and that of joins, has no influence on what is shown. -/
theorem eq_iff_equals_and_repeatsAlike (heuristics : Heuristics) :
    (∀ left right : TaintTree heuristics, left.Produced → right.Produced →
      (equals left right ↔ ∀ path, left.view path = right.view path) ∧
      (equals left right → ∀ path,
        Domain.isBottom (left.stored path) = Domain.isBottom (right.stored path)) ∧
      (left = right ↔ equals left right ∧ left.RepeatsAlike right)) ∧
    (∀ edges reordered : List (Path × Taint heuristics), edges.Perm reordered →
      (∀ edge ∈ edges, edge.2.WellFormed) → equals (ofEdges edges) (ofEdges reordered)) ∧
    (∀ first second third : TaintTree heuristics,
      first.Produced → second.Produced → third.Produced →
      equals ((first.join second).join third) (first.join (second.join third))) := by
  refine ⟨?trees, ?edges, ?joins⟩
  case trees =>
    intro left right leftProduced rightProduced
    have leftNormal := leftProduced.normal
    have rightNormal := rightProduced.normal
    have shown_iff := equals_iff_view_eq leftNormal.wellFormed rightNormal.wellFormed
    refine ⟨shown_iff, ?_, eq_iff_of_normal leftNormal rightNormal⟩
    intro same path
    exact Node.isBottom_stored_eq_of_views leftNormal.stores rightNormal.stores leftNormal.normal
      rightNormal.normal (shown_iff.mp same) path
  case edges =>
    intro edges reordered isReordered formed
    have reorderedFormed : ∀ edge ∈ reordered, edge.2.WellFormed := fun edge member =>
      formed edge (isReordered.mem_iff.mpr member)
    exact (equals_iff_view_eq (normal_ofEdges formed).wellFormed
      (normal_ofEdges reorderedFormed).wellFormed).mpr (view_ofEdges_perm isReordered formed)
  case joins =>
    intro first second third firstProduced secondProduced thirdProduced
    have firstFormed := firstProduced.normal.wellFormed
    have secondFormed := secondProduced.normal.wellFormed
    have thirdFormed := thirdProduced.normal.wellFormed
    exact (equals_iff_view_eq (stores_join (stores_join firstFormed secondFormed) thirdFormed)
      (stores_join firstFormed (stores_join secondFormed thirdFormed))).mpr
      (view_join_assoc firstFormed secondFormed thirdFormed)

/-- Taint of one kind at the elements of a root, at the root, and then of another at the elements. -/
def rootBetween : List (Path × Taint .standard) :=
  [([.anyIndex], .ofKind ⟨"A"⟩), ([], .ofKind ⟨"A"⟩), ([.anyIndex], .ofKind ⟨"B"⟩)]

def rootLast : List (Path × Taint .standard) :=
  [([.anyIndex], .ofKind ⟨"A"⟩), ([.anyIndex], .ofKind ⟨"B"⟩), ([], .ofKind ⟨"A"⟩)]

theorem ofEdges_rootBetween_ne : ofEdges rootBetween ≠ ofEdges rootLast :=
  of_decide_eq_false (by cbv)

theorem eq_iff_equals_and_repeatsAlike_elements :
    rootBetween.Perm rootLast ∧ (∀ edge ∈ rootBetween, edge.2.WellFormed) ∧
    equals (ofEdges rootBetween) (ofEdges rootLast) ∧
    ¬ (ofEdges rootBetween).RepeatsAlike (ofEdges rootLast) := by
  have isReordered : rootBetween.Perm rootLast := .cons _ (.swap _ _ _)
  have formed : ∀ edge ∈ rootBetween, edge.2.WellFormed := of_decide_eq_true (by cbv)
  have lastFormed : ∀ edge ∈ rootLast, edge.2.WellFormed := of_decide_eq_true (by cbv)
  obtain ⟨trees, edges, _⟩ := eq_iff_equals_and_repeatsAlike .standard
  have same := edges rootBetween rootLast isReordered formed
  obtain ⟨_, _, eq_iff⟩ := trees _ _ (.ofEdges formed) (.ofEdges lastFormed)
  exact ⟨isReordered, formed, same,
    fun alike => ofEdges_rootBetween_ne (eq_iff.mpr ⟨same, alike⟩)⟩

def elementsA : TaintTree .standard :=
  .ofEdges [([.anyIndex], .ofKind ⟨"A"⟩)]

def rootA : TaintTree .standard :=
  .leaf (.ofKind ⟨"A"⟩)

def elementsB : TaintTree .standard :=
  .ofEdges [([.anyIndex], .ofKind ⟨"B"⟩)]

/-- The order of edges and that of joins decide which tree is built, though the trees are equal in the
order. -/
theorem equals_ne_of_reordered :
    (ofEdges rootBetween).Produced ∧ (ofEdges rootLast).Produced ∧ rootBetween.Perm rootLast ∧
    equals (ofEdges rootBetween) (ofEdges rootLast) ∧ ofEdges rootBetween ≠ ofEdges rootLast ∧
    elementsA.Produced ∧ rootA.Produced ∧ elementsB.Produced ∧
    (elementsA.join rootA).join elementsB ≠
      elementsA.join (rootA.join elementsB) := by
  have betweenFormed : ∀ edge ∈ rootBetween, edge.2.WellFormed := of_decide_eq_true (by cbv)
  have lastFormed : ∀ edge ∈ rootLast, edge.2.WellFormed := of_decide_eq_true (by cbv)
  have elementsAProduced : elementsA.Produced := .ofEdges (of_decide_eq_true (by cbv))
  have rootAProduced : rootA.Produced := .leaf (of_decide_eq_true (by cbv))
  have elementsBProduced : elementsB.Produced := .ofEdges (of_decide_eq_true (by cbv))
  exact ⟨.ofEdges betweenFormed, .ofEdges lastFormed, .cons _ (.swap _ _ _), by cbv,
    ofEdges_rootBetween_ne, elementsAProduced, rootAProduced, elementsBProduced,
    of_decide_eq_false (by cbv)⟩

end TaintTree

end AliasTaint
