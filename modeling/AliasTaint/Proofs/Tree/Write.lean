import AliasTaint.Proofs.Cumulative
import AliasTaint.Proofs.Tree.Meet
import AliasTaint.Proofs.Tree.Stored

/-!
# Reads and writes of trees

What a tree shows after a write, for values that sink unchanged.  A write changes nothing at paths
that do not lead through it, and a tree shows more further down; this holds of all values.  At and
below its path, a weak write of well-formed values adds what the written tree shows, and a strong one
leaves only that and what the ancestors of the path show.  A read shows what the whole tree shows below
the path.  These follow from what the operations ask for along a path: two values with the same bounds
are the same.

The order of trees compares what one stores with what the other shows.  For well-formed values it is
the order of what the trees show.
-/

namespace AliasTaint

open Domain

variable {V : Type} [Domain V] {Good : V → Prop} [SemilatticeOn Good]

theorem sinkIntoChild_id [CumulativeDomain V] (ancestors value : V) :
    sinkIntoChild id ancestors value = join ancestors value := by
  unfold sinkIntoChild
  split
  · rename_i nothing
    rw [Bool.and_eq_true, CumulativeDomain.isBottom_iff, CumulativeDomain.isBottom_iff] at nothing
    rw [nothing.1, nothing.2, CumulativeDomain.join_bottom]
  · rfl

namespace Node

/-! ## Writes elsewhere -/

section Elsewhere

variable [CumulativeDomain V]

theorem eq_bottom_of_isBottom {node : Node V} (isNothing : node.isBottom) : node = bottom := by
  cases node with
  | mk value children =>
      have parts : Domain.isBottom value ∧ children.isEmpty := Bool.and_eq_true_iff.mp isNothing
      rw [CumulativeDomain.isBottom_iff.mp parts.1, List.isEmpty_iff.mp parts.2]
      rfl

theorem childOrBottom_withChild (node child : Node V) (changed label : PathElement) :
    (node.withChild changed child).childOrBottom label =
      if label = changed then child else node.childOrBottom label := by
  rw [childOrBottom, child?_withChild]
  split
  · cases empty : child.isBottom with
    | true =>
        rw [nonBottom?, if_pos empty, eq_bottom_of_isBottom empty]
        rfl
    | false =>
        rw [nonBottom?, empty]
        rfl
  · rfl

omit [CumulativeDomain V] in
theorem value_graftUnder_of_ne_nil (sink : V → V) (kind : UpdateKind) (tree : Node V)
    (inherited : V) {path : Path} (belowRoot : path ≠ []) (node : Node V) :
    (graftUnder sink kind tree inherited path node).value = node.value := by
  cases path with
  | nil =>
      exact absurd rfl belowRoot
  | cons label path =>
      exact value_withChild node _ label

theorem showFrom_graftUnder_elsewhere (sink : V → V) (kind : UpdateKind) (tree : Node V)
    {path other : Path} (elsewhere : ¬ path <+: other) (inherited shown : V) (node : Node V) :
    (graftUnder sink kind tree inherited path node).showFrom sink shown other =
      node.showFrom sink shown other := by
  induction other generalizing path inherited shown node with
  | nil =>
      rfl
  | cons label other inductionHypothesis =>
      cases path with
      | nil =>
          exact absurd List.nil_prefix elsewhere
      | cons first path =>
          rw [graftUnder, showFrom, showFrom, childOrBottom_withChild]
          split
          · rename_i same
            subst same
            have elsewhereBelow : ¬ path <+: other :=
              fun leads => elsewhere ((List.prefix_cons_inj label).mpr leads)
            have belowRoot : path ≠ [] := fun atRoot => elsewhereBelow (atRoot ▸ List.nil_prefix)
            rw [value_graftUnder_of_ne_nil sink kind tree _ belowRoot]
            exact inductionHypothesis elsewhereBelow _ _ _
          · rfl

/-- A graft changes nothing at paths that do not lead through it, whatever is grafted. -/
theorem view_graft_elsewhere (sink : V → V) (kind : UpdateKind) (node tree : Node V)
    {path other : Path} (elsewhere : ¬ path <+: other) :
    (node.graft sink path tree kind).view sink other = node.view sink other := by
  have belowRoot : path ≠ [] := fun atRoot => elsewhere (atRoot ▸ List.nil_prefix)
  rw [graft, view, value_graftUnder_of_ne_nil sink kind tree _ belowRoot]
  exact showFrom_graftUnder_elsewhere sink kind tree elsewhere _ _ node

end Elsewhere

/-! ## Reads and writes of well-formed values -/

theorem good_view {node : Node V} (stores : node.Stores Good) (path : Path) :
    Good (node.view id path) :=
  good_showFrom stores stores.value path

/-- A shown value is known from the values along its path. -/
theorem eq_view_of_allAlong_iff {node : Node V} (stores : node.Stores Good) {path : Path}
    {value : V} (good : Good value)
    (sameBounds : ∀ upper, Good upper →
      (node.AllAlong (fun stored => Domain.leq stored upper) path ↔ Domain.leq value upper)) :
    node.view id path = value := by
  refine SemilatticeOn.eq_of_leq_iff (good_view stores path) good ?_
  intro upper goodUpper
  rw [← sameBounds upper goodUpper]
  exact inside_view_iff (ideal_leq goodUpper) stores path

theorem view_leaf {value : V} (good : Good value) (path : Path) :
    (leaf value).view id path = value := by
  refine eq_view_of_allAlong_iff (stores_leaf good) good ?_
  intro upper goodUpper
  exact allAlong_leaf_iff (SemilatticeOn.bottom_leq goodUpper) value path

theorem view_read {node : Node V} (ordered : node.Ordered) (stores : node.Stores Good)
    (path below : Path) :
    (node.read id path).view id below = node.view id (path ++ below) := by
  refine eq_view_of_allAlong_iff (stores.readUnder ordered JoinClosed.bottom path)
    (good_view stores _) ?_
  intro upper goodUpper
  have ideal := ideal_leq goodUpper
  have readBounds := allAlong_readUnder_iff ideal ordered stores JoinClosed.bottom path below
  refine readBounds.trans ((and_iff_right ideal.bottom).trans ?_)
  exact (inside_view_iff ideal stores _).symm

section Grafts

variable {node tree : Node V} (ordered : node.Ordered) (treeOrdered : tree.Ordered)
  (stores : node.Stores Good) (treeStores : tree.Stores Good)

include ordered treeOrdered stores treeStores

theorem view_graft_weak (path below : Path) :
    (node.graft id path tree .weak).view id (path ++ below) =
      join (node.view id (path ++ below)) (tree.view id below) := by
  have goodBefore := good_view stores (path ++ below)
  have goodGrafted := good_view treeStores below
  refine eq_view_of_allAlong_iff
    (Stores.graftUnder id .weak treeOrdered ordered treeStores stores Domain.bottom path)
    (JoinClosed.join goodBefore goodGrafted) ?_
  intro upper goodUpper
  have ideal := ideal_leq goodUpper
  have before := inside_view_iff ideal stores (path ++ below)
  have grafted := inside_view_iff ideal treeStores below
  refine (allAlong_graftUnder_iff ideal .weak treeOrdered ordered treeStores stores
    JoinClosed.bottom ideal.bottom path below).trans ?_
  rw [SemilatticeOn.join_leq_iff goodBefore goodGrafted goodUpper, before, grafted,
    allAlong_append_iff, and_assoc]
  simp only [forall_const]

theorem view_graft_strong (path below : Path) :
    (node.graft id path tree .strong).view id (path ++ below) =
      if path = [] then tree.view id below
      else join (node.view id path.dropLast) (tree.view id below) := by
  have goodAbove := good_view stores path.dropLast
  have goodGrafted := good_view treeStores below
  refine eq_view_of_allAlong_iff
    (Stores.graftUnder id .strong treeOrdered ordered treeStores stores Domain.bottom path)
    ?_ ?_
  · split
    · exact goodGrafted
    · exact JoinClosed.join goodAbove goodGrafted
  · intro upper goodUpper
    have ideal := ideal_leq goodUpper
    have above := inside_view_iff ideal stores path.dropLast
    have grafted := inside_view_iff ideal treeStores below
    refine (allAlong_graftUnder_iff ideal .strong treeOrdered ordered treeStores stores
      JoinClosed.bottom ideal.bottom path below).trans ?_
    simp only [reduceCtorEq, false_implies, true_and]
    split
    · rename_i atRoot
      subst atRoot
      rw [grafted]
      exact and_iff_right trivial
    · rename_i belowRoot
      rw [SemilatticeOn.join_leq_iff goodAbove goodGrafted goodUpper, above, grafted,
        allAbove_iff_dropLast belowRoot]

end Grafts

/-! ## The order of what is shown -/

section Order

variable [CumulativeDomain V]

omit [CumulativeDomain V] in
theorem showFrom_append (sink : V → V) (path below : Path) (shown : V) (node : Node V) :
    node.showFrom sink shown (path ++ below) =
      (node.rawRead path).showFrom sink (node.showFrom sink shown path) below := by
  induction path generalizing shown node with
  | nil =>
      rfl
  | cons label path inductionHypothesis =>
      rw [rawRead_cons]
      exact inductionHypothesis _ _

theorem leq_showFrom (path : Path) (shown : V) (node : Node V) :
    Domain.leq shown (node.showFrom id shown path) := by
  induction path generalizing shown node with
  | nil =>
      exact CumulativeDomain.leq_refl shown
  | cons label path inductionHypothesis =>
      refine CumulativeDomain.leq_trans ?_ (inductionHypothesis _ _)
      rw [sinkIntoChild_id, CumulativeDomain.bottom_join]
      exact CumulativeDomain.leq_join_left shown _

/-- Further down, a tree shows more. -/
theorem view_leq_view_of_beginning (node : Node V) {above path : Path}
    (isBeginning : above <+: path) :
    Domain.leq (node.view id above) (node.view id path) := by
  obtain ⟨below, rfl⟩ := isBeginning
  rw [view, view, showFrom_append]
  exact leq_showFrom below _ _

theorem stored_leq_view_of_beginning (node : Node V) {above path : Path}
    (isBeginning : above <+: path) :
    Domain.leq (node.stored above) (node.view id path) := by
  refine CumulativeDomain.leq_trans ?_ (view_leq_view_of_beginning node isBeginning)
  rcases List.eq_nil_or_concat above with rfl | ⟨parent, label, rfl⟩
  · exact CumulativeDomain.leq_refl node.value
  · rw [List.concat_eq_append, view_concat]
    exact CumulativeDomain.leq_join_right _ _

theorem shownAt_eq_join (inherited : V) (right : Option (Node V)) :
    shownAt inherited right = join inherited (right.getD bottom).value := by
  cases right with
  | none =>
      exact (CumulativeDomain.join_bottom inherited).symm
  | some node =>
      rfl

/-- The comparison compares each value stored on the left with what is shown on the right. -/
theorem leqUnder_iff_stored_leq {left : Node V} (ordered : left.Ordered)
    (right : Option (Node V)) (inherited : V) :
    leqUnder id inherited left right ↔
      ∀ path, Domain.leq (left.stored path)
        ((right.getD bottom).showFrom id (shownAt inherited right) path) := by
  induction left using Node.induction generalizing right inherited with
  | step value children inductionHypothesis =>
      have below (label : PathElement) (child : Node V)
          (found : (mk value children).child? label = some child) :
          leqUnder id (sinkIntoChild id Domain.bottom (shownAt inherited right)) child
              (right.bind fun node => node.child? label) ↔
            ∀ path, Domain.leq ((mk value children).stored (label :: path))
              ((right.getD bottom).showFrom id (shownAt inherited right) (label :: path)) := by
        rw [inductionHypothesis (label, child) (Entries.mem_of_lookup found)
          (ordered.child? found), shownAt_eq_join]
        refine forall_congr' fun path => ?_
        rw [stored, childOrBottom_of_child? found, showFrom, childOrBottom_getD]
      rw [leqUnder_mk, Bool.and_eq_true, leqChildren_iff]
      constructor
      · rintro ⟨valueCovered, childrenCovered⟩ path
        cases path with
        | nil =>
            exact valueCovered
        | cons label path =>
            cases found : (mk value children).child? label with
            | none =>
                rw [stored, childOrBottom, found, Option.getD_none, stored_bottom]
                exact CumulativeDomain.bottom_leq _
            | some child =>
                exact (below label child found).mp
                  (childrenCovered (label, child) (Entries.mem_of_lookup found)) path
      · intro covered
        refine ⟨covered [], ?_⟩
        rintro ⟨label, child⟩ member
        have found : (mk value children).child? label = some child :=
          ordered.increasing.lookup_eq_some_iff.mpr member
        exact (below label child found).mpr fun path => covered (label :: path)

theorem leq_iff_stored_leq_view {left : Node V} (ordered : left.Ordered) (right : Node V) :
    left.leq id right ↔ ∀ path, Domain.leq (left.stored path) (right.view id path) := by
  have shown : shownAt Domain.bottom (some right) = right.value :=
    CumulativeDomain.bottom_join right.value
  have compared : leqUnder id Domain.bottom left (some right) ↔ _ :=
    leqUnder_iff_stored_leq ordered (some right) Domain.bottom
  rw [shown] at compared
  exact compared

omit [CumulativeDomain V] in
theorem view_leq_iff_stored_leq {node : Node V} (stores : node.Stores Good) {path : Path}
    {upper : V} (good : Good upper) :
    Domain.leq (node.view id path) upper ↔
      ∀ above, above <+: path → Domain.leq (node.stored above) upper :=
  (inside_view_iff (ideal_leq good) stores path).trans allAlong_iff_stored

/-- The order of trees is the order of what they show. -/
theorem leq_iff_view_leq_of_stores {left right : Node V} (leftOrdered : left.Ordered)
    (leftStores : left.Stores Good) (rightStores : right.Stores Good) :
    left.leq id right ↔ ∀ path, Domain.leq (left.view id path) (right.view id path) := by
  rw [leq_iff_stored_leq_view leftOrdered]
  constructor
  · intro covered path
    refine (view_leq_iff_stored_leq leftStores (good_view rightStores path)).mpr
      fun above isBeginning => ?_
    exact CumulativeDomain.leq_trans (covered above) (view_leq_view_of_beginning right isBeginning)
  · intro covered path
    exact CumulativeDomain.leq_trans (stored_leq_view_of_beginning left (List.prefix_refl path))
      (covered path)

end Order

end Node

/-! ## Taint trees -/

namespace TaintTree

variable {heuristics : Heuristics}

/-- The taint that a tree shows at a path, with the taint of the ancestors. -/
def view (tree : TaintTree heuristics) (path : Path) : Taint heuristics :=
  tree.tree.view policy.sink path

theorem view_writeTree_elsewhere (tree grafted : TaintTree heuristics) (kind : UpdateKind)
    {path other : Path} (elsewhere : ¬ path <+: other) :
    (tree.writeTree path grafted kind).view other = tree.view other :=
  Node.view_graft_elsewhere policy.sink kind tree.tree.node grafted.tree.node elsewhere

theorem view_leq_view (tree : TaintTree heuristics) {above path : Path}
    (isBeginning : above <+: path) : Domain.leq (tree.view above) (tree.view path) :=
  Node.view_leq_view_of_beginning tree.tree.node isBeginning

section Stored

variable {Good : Taint heuristics → Prop} [SemilatticeOn Good] {tree grafted : TaintTree heuristics}

theorem good_view (stores : tree.tree.Stores Good) (path : Path) : Good (tree.view path) :=
  Node.good_view stores path

theorem leq_iff_view_leq {left right : TaintTree heuristics} (leftStores : left.tree.Stores Good)
    (rightStores : right.tree.Stores Good) :
    left.leq right ↔ ∀ path, Domain.leq (left.view path) (right.view path) :=
  Node.leq_iff_view_leq_of_stores left.tree.ordered leftStores rightStores

theorem equals_iff_view_eq {left right : TaintTree heuristics}
    (leftStores : left.tree.Stores Good) (rightStores : right.tree.Stores Good) :
    equals left right ↔ ∀ path, left.view path = right.view path := by
  have covered_iff : equals left right ↔ left.leq right ∧ right.leq left := Bool.and_eq_true_iff
  rw [covered_iff, leq_iff_view_leq leftStores rightStores, leq_iff_view_leq rightStores leftStores,
    ← forall_and]
  refine forall_congr' fun path => ⟨?_, ?_⟩
  · rintro ⟨leftCovered, rightCovered⟩
    exact SemilatticeOn.leq_antisymm (good_view leftStores path) (good_view rightStores path)
      leftCovered rightCovered
  · intro same
    rw [same]
    have covered := SemilatticeOn.leq_refl (good_view rightStores path)
    exact ⟨covered, covered⟩

theorem stores_read (stores : tree.tree.Stores Good) (path : Path) :
    (tree.read path).tree.Stores Good :=
  Node.Stores.readUnder tree.tree.ordered stores JoinClosed.bottom path

theorem view_read (stores : tree.tree.Stores Good) (path below : Path) :
    (tree.read path).view below = tree.view (path ++ below) :=
  Node.view_read tree.tree.ordered stores path below

theorem stores_writeTree (stores : tree.tree.Stores Good) (graftedStores : grafted.tree.Stores Good)
    (path : Path) (kind : UpdateKind) :
    (tree.writeTree path grafted kind).tree.Stores Good :=
  Node.Stores.graftUnder id kind grafted.tree.ordered tree.tree.ordered graftedStores stores
    Domain.bottom path

theorem view_writeTree_weak
    (stores : tree.tree.Stores Good) (graftedStores : grafted.tree.Stores Good)
    (path below : Path) :
    (tree.writeTree path grafted .weak).view (path ++ below) =
      Domain.join (tree.view (path ++ below)) (grafted.view below) :=
  Node.view_graft_weak tree.tree.ordered grafted.tree.ordered stores graftedStores path below

theorem view_writeTree_strong
    (stores : tree.tree.Stores Good) (graftedStores : grafted.tree.Stores Good)
    (path below : Path) :
    (tree.writeTree path grafted .strong).view (path ++ below) =
      if path = [] then grafted.view below
      else Domain.join (tree.view path.dropLast) (grafted.view below) :=
  Node.view_graft_strong tree.tree.ordered grafted.tree.ordered stores graftedStores path below

theorem stores_bottom : (bottom : TaintTree heuristics).tree.Stores Good :=
  Node.stores_bottom

theorem stores_join (stores : tree.tree.Stores Good) (otherStores : grafted.tree.Stores Good) :
    (tree.join grafted).tree.Stores Good :=
  Node.Stores.merge policy.sink (Or.inl rfl) .nothing tree.tree.ordered grafted.tree.ordered stores
    otherStores

section Ideals

variable {Inside : Taint heuristics → Prop} (ideal : Ideal Good Inside)

include ideal

theorem inside_view_of_isBottom (stores : tree.tree.Stores Good) (isNothing : tree.isBottom)
    (path : Path) : Inside (tree.view path) :=
  (Node.inside_view_iff ideal stores path).mpr
    (Node.allAlong_of_isBottom ideal stores isNothing path)

theorem inside_view_bottom (path : Path) : Inside ((bottom : TaintTree heuristics).view path) :=
  inside_view_of_isBottom ideal stores_bottom rfl path

theorem inside_view_join_iff (stores : tree.tree.Stores Good)
    (otherStores : grafted.tree.Stores Good) (path : Path) :
    Inside ((tree.join grafted).view path) ↔ Inside (tree.view path) ∧ Inside (grafted.view path) := by
  have goodNothing : Good (Inherited.nothing : Inherited (Taint heuristics)).result :=
    JoinClosed.bottom
  have merged := Node.allAlong_merge_iff ideal (Or.inl rfl) goodNothing ideal.bottom
    tree.tree.ordered grafted.tree.ordered stores otherStores path
  refine (Node.inside_view_iff ideal (stores_join stores otherStores) path).trans (merged.trans ?_)
  exact and_congr (Node.inside_view_iff ideal stores path).symm
    (Node.inside_view_iff ideal otherStores path).symm

/-- A weak write adds to a path what the written tree shows at the rest of the path. -/
theorem inside_view_writeTree_weak_iff
    (stores : tree.tree.Stores Good) (graftedStores : grafted.tree.Stores Good)
    (path other : Path) :
    Inside ((tree.writeTree path grafted .weak).view other) ↔
      Inside (tree.view other) ∧ ∀ rest, path ++ rest = other → Inside (grafted.view rest) := by
  by_cases leads : path <+: other
  · obtain ⟨below, rfl⟩ := leads
    rw [view_writeTree_weak stores graftedStores,
      ideal.join_iff (good_view stores _) (good_view graftedStores below)]
    refine and_congr_right fun _ => ⟨?_, fun all => all below rfl⟩
    intro shown rest same
    rwa [List.append_cancel_left same]
  · rw [view_writeTree_elsewhere tree grafted .weak leads]
    exact (and_iff_left fun rest same => absurd ⟨rest, same⟩ leads).symm

end Ideals

end Stored

end TaintTree

end AliasTaint
