import AliasTaint.Proofs.Tree.Hoist

/-!
# Stored values and heights

A tree stores a value at every path, bottom where it has no node.  What an ideal asks for along a path
is then a statement about the values stored at the beginnings of the path, and a collapse asks besides
for everything stored below one of them.

A tree stores nothing at paths longer than its height.  A merge is no higher than the higher of its
sides, and a collapse no higher than its depth.
-/

namespace AliasTaint

open Domain

variable {V : Type} [Domain V] {Good Inside Marked : V → Prop}

theorem Path.compare_cons_cons (label other : PathElement) (path rest : Path) :
    compare (label :: path) (other :: rest) =
      (compare label other).then (compare path rest) := by
  simp only [List.compare_eq_compareLex, List.compareLex_cons_cons]

namespace Node

/-! ## Stored values and nodes -/

theorem stored_bottom (path : Path) : (bottom : Node V).stored path = Domain.bottom := by
  induction path with
  | nil =>
      rfl
  | cons label path inductionHypothesis =>
      exact inductionHypothesis

theorem Stores.stored {Good : V → Prop} (goodBottom : Good Domain.bottom)
    {node : Node V} (stores : node.Stores Good) (path : Path) :
    Good (node.stored path) := by
  induction path generalizing node with
  | nil =>
      exact stores.value
  | cons label path inductionHypothesis =>
      exact inductionHypothesis (stores_childOrBottom goodBottom stores.children label)

omit [Domain V] in
theorem ne_nil_of_mem_nodesOf {children : List (PathElement × Node V)} {stored : Path × V}
    (member : stored ∈ nodesOf children) : stored.1 ≠ [] := by
  obtain ⟨entry, _, below, _, rfl⟩ := mem_nodesOf.mp member
  exact List.cons_ne_nil entry.1 below.1

omit [Domain V] in
theorem mem_nodes_iff_descend? {node : Node V} (ordered : node.Ordered) {path : Path} {value : V} :
    (path, value) ∈ node.nodes ↔
      ∃ below, node.descend? path = some below ∧ below.value = value := by
  induction path generalizing node with
  | nil =>
      obtain ⟨nodeValue, children⟩ := node
      have notBelow : ([], value) ∉ nodesOf children := fun below => ne_nil_of_mem_nodesOf below rfl
      rw [nodes, List.mem_cons, or_iff_left notBelow, descend?]
      simp [Node.value, eq_comm]
  | cons label path inductionHypothesis =>
      obtain ⟨nodeValue, children⟩ := node
      rw [nodes, List.mem_cons, or_iff_right (by simp), mem_nodesOf]
      constructor
      · rintro ⟨⟨entryLabel, child⟩, entryMember, ⟨_, _⟩, childMember, same⟩
        cases same
        have found : (mk nodeValue children).child? entryLabel = some child :=
          ordered.increasing.lookup_eq_some_iff.mpr entryMember
        rw [descend?, found]
        exact (inductionHypothesis (ordered.child? found)).mp childMember
      · rintro ⟨below, reached, isValue⟩
        obtain ⟨child, found, further⟩ := Option.bind_eq_some_iff.mp reached
        exact ⟨(label, child), Entries.mem_of_lookup found, (path, value),
          (inductionHypothesis (ordered.child? found)).mpr ⟨below, further, isValue⟩, rfl⟩

theorem stored_of_mem_nodes {node : Node V} (ordered : node.Ordered) {path : Path} {value : V}
    (member : (path, value) ∈ node.nodes) : node.stored path = value := by
  induction path generalizing node with
  | nil =>
      cases node with
      | mk nodeValue children =>
          rcases List.mem_cons.mp member with atRoot | below
          · cases atRoot
            rfl
          · exact absurd rfl (ne_nil_of_mem_nodesOf below)
  | cons label path inductionHypothesis =>
      cases node with
      | mk nodeValue children =>
          rcases List.mem_cons.mp member with atRoot | below
          · exact nomatch atRoot
          · obtain ⟨⟨entryLabel, child⟩, entryMember, ⟨_, _⟩, childMember, same⟩ :=
              mem_nodesOf.mp below
            cases same
            have found : (mk nodeValue children).child? entryLabel = some child :=
              ordered.increasing.lookup_eq_some_iff.mpr entryMember
            rw [stored, childOrBottom_of_child? found]
            exact inductionHypothesis (ordered.child? found) childMember

theorem isSome_child?_of_stored (nothing : Domain.isBottom (Domain.bottom : V)) {node : Node V}
    {label : PathElement} {path : Path}
    (filled : Domain.isBottom (node.stored (label :: path)) = false) :
    (node.child? label).isSome := by
  cases found : node.child? label with
  | some child =>
      rfl
  | none =>
      rw [stored, childOrBottom, found, Option.getD_none, stored_bottom, nothing] at filled
      cases filled

theorem mem_nodes_of_stored (nothing : Domain.isBottom (Domain.bottom : V)) {node : Node V}
    {path : Path} (filled : Domain.isBottom (node.stored path) = false) :
    (path, node.stored path) ∈ node.nodes := by
  induction path generalizing node with
  | nil =>
      cases node
      exact List.mem_cons_self
  | cons label path inductionHypothesis =>
      obtain ⟨child, found⟩ :=
        Option.isSome_iff_exists.mp (isSome_child?_of_stored nothing filled)
      rw [stored, childOrBottom_of_child? found] at filled ⊢
      cases node
      exact List.mem_cons_of_mem _ (mem_nodesOf.mpr
        ⟨(label, child), Entries.mem_of_lookup found, _, inductionHypothesis filled, rfl⟩)

theorem mem_visit_iff (nothing : Domain.isBottom (Domain.bottom : V)) {node : Node V}
    (ordered : node.Ordered) {path : Path} {value : V} :
    (path, value) ∈ node.visit ↔ node.stored path = value ∧ Domain.isBottom value = false := by
  rw [visit, List.mem_filter, Bool.not_eq_true']
  refine and_congr_left fun filled => ⟨stored_of_mem_nodes ordered, ?_⟩
  intro isStored
  subst isStored
  exact mem_nodes_of_stored nothing filled

omit [Domain V] in
private theorem increasing_nodesOf {children : List (PathElement × Node V)}
    (increasing : Entries.Increasing children)
    (inside : ∀ entry ∈ children, Entries.Increasing entry.2.nodes) :
    Entries.Increasing (nodesOf children) := by
  induction children with
  | nil =>
      exact Entries.increasing_nil
  | cons entry rest inductionHypothesis =>
      obtain ⟨label, child⟩ := entry
      obtain ⟨smaller, restIncreasing⟩ := List.pairwise_cons.mp increasing
      obtain ⟨childIncreasing, restInside⟩ := List.forall_mem_cons.mp inside
      refine List.pairwise_append.mpr ⟨?_, inductionHypothesis restIncreasing restInside, ?_⟩
      · refine List.pairwise_map.mpr (childIncreasing.imp ?_)
        intro first second earlier
        rw [Path.compare_cons_cons, Std.ReflOrd.compare_self]
        exact earlier
      · intro first firstMember second secondMember
        obtain ⟨found, _, rfl⟩ := List.mem_map.mp firstMember
        obtain ⟨entry, entryMember, below, _, rfl⟩ := mem_nodesOf.mp secondMember
        rw [Path.compare_cons_cons, smaller entry entryMember]
        rfl

omit [Domain V] in
/-- The nodes are listed in the order of their paths. -/
theorem increasing_nodes {node : Node V} (ordered : node.Ordered) :
    Entries.Increasing node.nodes := by
  induction node using Node.induction with
  | step value children inductionHypothesis =>
      refine List.pairwise_cons.mpr ⟨?_, increasing_nodesOf ordered.increasing ?_⟩
      · intro stored member
        obtain ⟨entry, _, found, _, rfl⟩ := mem_nodesOf.mp member
        rfl
      · intro entry member
        exact inductionHypothesis entry member (ordered.children entry member)

/-! ## What is asked for, by stored values -/

theorem allAlong_iff_stored {node : Node V} {path : Path} :
    node.AllAlong Inside path ↔ ∀ above, above <+: path → Inside (node.stored above) := by
  induction path generalizing node with
  | nil =>
      rw [AllAlong]
      refine ⟨?_, fun all => all [] List.nil_prefix⟩
      intro valueInside above isPrefix
      rw [List.prefix_nil.mp isPrefix]
      exact valueInside
  | cons label path inductionHypothesis =>
      rw [AllAlong, inductionHypothesis]
      constructor
      · rintro ⟨valueInside, childInside⟩ above isPrefix
        cases above with
        | nil =>
            exact valueInside
        | cons first above =>
            obtain ⟨rfl, restPrefix⟩ := List.cons_prefix_cons.mp isPrefix
            exact childInside above restPrefix
      · intro all
        refine ⟨all [] List.nil_prefix, ?_⟩
        intro above isPrefix
        exact all (label :: above) (List.cons_prefix_cons.mpr ⟨rfl, isPrefix⟩)

theorem stores_iff_stored (bottomInside : Inside Domain.bottom)
    {node : Node V} (ordered : node.Ordered) :
    node.Stores Inside ↔ ∀ path, Inside (node.stored path) := by
  refine ⟨Stores.stored bottomInside, ?_⟩
  intro all
  refine (stores_iff_allAlong bottomInside ordered).mpr ?_
  intro path
  exact allAlong_iff_stored.mpr fun above _ => all above

private theorem children_store_iff (bottomMarked : Marked Domain.bottom)
    {node : Node V} (ordered : node.Ordered) :
    (∀ entry ∈ node.children, entry.2.Stores Marked) ↔
      ∀ below, below ≠ [] → Marked (node.stored below) := by
  constructor
  · intro childrenStore below nonempty
    cases below with
    | nil =>
        exact absurd rfl nonempty
    | cons label below =>
        exact Stores.stored bottomMarked
          (stores_childOrBottom bottomMarked childrenStore label) below
  · intro all entry member
    have found : node.child? entry.1 = some entry.2 :=
      ordered.increasing.lookup_eq_some_iff.mpr member
    refine (stores_iff_stored bottomMarked (ordered.child? found)).mpr ?_
    intro path
    have stored := all (entry.1 :: path) (List.cons_ne_nil _ _)
    rwa [Node.stored, childOrBottom_of_child? found] at stored

/-- A collapse asks for what is stored at the beginnings of a path down to its depth and, if the path
gets that far, for what is stored anywhere below. -/
theorem allHoisted_iff_stored (bottomMarked : Marked Domain.bottom)
    {node : Node V} (ordered : node.Ordered) (depth : Nat) (path : Path) :
    node.AllHoisted Inside Marked depth path ↔
      (∀ above, above <+: path → above.length ≤ depth → Inside (node.stored above)) ∧
        (depth ≤ path.length →
          ∀ below, below ≠ [] → Marked (node.stored (path.take depth ++ below))) := by
  induction depth generalizing node path with
  | zero =>
      rw [AllHoisted, children_store_iff bottomMarked ordered]
      simp only [List.take_zero, List.nil_append, Nat.zero_le, forall_const]
      refine and_congr_left fun _ => ⟨?_, fun all => all [] List.nil_prefix (Nat.le_refl 0)⟩
      intro valueInside above _ short
      rw [List.eq_nil_of_length_eq_zero (Nat.le_zero.mp short)]
      exact valueInside
  | succ depth inductionHypothesis =>
      cases path with
      | nil =>
          rw [AllHoisted]
          refine ⟨?_, fun all => all.1 [] List.nil_prefix (Nat.zero_le _)⟩
          intro valueInside
          refine ⟨?_, fun long => absurd long (Nat.not_succ_le_zero depth)⟩
          intro above isPrefix _
          rw [List.prefix_nil.mp isPrefix]
          exact valueInside
      | cons label path =>
          rw [AllHoisted, inductionHypothesis (ordered.childOrBottom label), ← and_assoc]
          simp only [List.take_succ_cons, List.cons_append, List.length_cons,
            Nat.add_le_add_iff_right]
          refine and_congr_left fun _ => ?_
          constructor
          · rintro ⟨valueInside, childInside⟩ above isPrefix short
            cases above with
            | nil =>
                exact valueInside
            | cons first above =>
                obtain ⟨rfl, restPrefix⟩ := List.cons_prefix_cons.mp isPrefix
                exact childInside above restPrefix (Nat.le_of_succ_le_succ short)
          · intro all
            refine ⟨all [] List.nil_prefix (Nat.zero_le _), ?_⟩
            intro above isPrefix short
            exact all (label :: above) (List.cons_prefix_cons.mpr ⟨rfl, isPrefix⟩)
              (Nat.succ_le_succ short)

/-! ## Stored values of a merge -/

section Merging

variable [SemilatticeOn Good]

theorem stored_of_isBottom {node : Node V} (stores : node.Stores Good)
    (isNothing : node.isBottom) (path : Path) : node.stored path = Domain.bottom := by
  cases path with
  | nil =>
      exact (SemilatticeOn.isBottom_iff stores.value).mp (isBottom_value isNothing)
  | cons label path =>
      rw [stored, childOrBottom_of_isBottom isNothing label, stored_bottom]

/-- A join stores at a path the join of what the two sides store there, or nothing. -/
theorem stored_merge_eq (sink : V → V) {op : MergeOp} (isJoin : op = .join ∨ op = .normalize)
    (inherited : Inherited V) {left right : Node V}
    (leftOrdered : left.Ordered) (rightOrdered : right.Ordered)
    (leftStores : left.Stores Good) (rightStores : right.Stores Good) (path : Path) :
    (merge sink op inherited left right).stored path = Domain.bottom ∨
      (merge sink op inherited left right).stored path =
        join (left.stored path) (right.stored path) := by
  induction path generalizing inherited left right with
  | nil =>
      have combined : op.combine inherited left.value right.value =
          join left.value right.value := by
        rcases isJoin with rfl | rfl <;> rfl
      simp only [stored, value_merge, MergeOp.store, combined]
      split
      · exact Or.inl rfl
      · exact Or.inr rfl
  | cons label path inductionHypothesis =>
      have leftChildStores := leftStores.childOrBottom label
      have rightChildStores := rightStores.childOrBottom label
      simp only [stored]
      rcases childOrBottom_merge sink op inherited leftOrdered rightOrdered label with
        ⟨_, _, absent⟩ | ⟨found, outcome, isFound⟩
      · rw [absent]
        exact Or.inl (stored_bottom path)
      · rw [isFound]
        cases outcome with
        | dropped _ _ =>
            exact Or.inl (stored_bottom path)
        | keptLeft _ _ rightEmpty =>
            have goodStored := Stores.stored JoinClosed.bottom leftChildStores path
            rw [stored_of_isBottom rightChildStores rightEmpty]
            exact Or.inr (SemilatticeOn.join_bottom goodStored).symm
        | keptRight _ _ leftEmpty =>
            have goodStored := Stores.stored JoinClosed.bottom rightChildStores path
            rw [stored_of_isBottom leftChildStores leftEmpty]
            exact Or.inr (SemilatticeOn.bottom_join goodStored).symm
        | merged _ =>
            exact inductionHypothesis _ (leftOrdered.childOrBottom label)
              (rightOrdered.childOrBottom label) leftChildStores rightChildStores
        | pruned _ =>
            exact Or.inl (stored_bottom path)

end Merging

/-! ## Heights -/

omit [Domain V] in
theorem height_mk_le_iff {value : V} {children : List (PathElement × Node V)} {bound : Nat} :
    (mk value children).height ≤ bound ↔ ∀ entry ∈ children, entry.2.height < bound := by
  rw [height]
  induction children with
  | nil =>
      simp [heightOf]
  | cons entry rest inductionHypothesis =>
      rw [heightOf, Nat.max_le, inductionHypothesis, List.forall_mem_cons]
      exact Iff.rfl

omit [Domain V] in
theorem height_le_iff {node : Node V} (ordered : node.Ordered) {bound : Nat} :
    node.height ≤ bound ↔ ∀ label child, node.child? label = some child → child.height < bound := by
  cases node with
  | mk value children =>
      rw [height_mk_le_iff]
      constructor
      · intro lower label child found
        exact lower (label, child) (Entries.mem_of_lookup found)
      · rintro lower ⟨label, child⟩ member
        exact lower label child (ordered.increasing.lookup_eq_some_iff.mpr member)

/-- Children are lower than their node; a missing child is no exception where the node has another. -/
theorem height_childOrBottom_lt {node : Node V} (ordered : node.Ordered) {bound : Nat}
    (low : node.height ≤ bound) (positive : 0 < bound) (label : PathElement) :
    (node.childOrBottom label).height < bound := by
  cases found : node.child? label with
  | none =>
      rw [childOrBottom, found]
      exact positive
  | some child =>
      rw [childOrBottom_of_child? found]
      exact (height_le_iff ordered).mp low label child found

theorem stored_of_height_lt {node : Node V} (ordered : node.Ordered) {path : Path}
    (beyond : node.height < path.length) : node.stored path = Domain.bottom := by
  induction path generalizing node with
  | nil =>
      exact absurd beyond (Nat.not_lt_zero _)
  | cons label path inductionHypothesis =>
      cases found : node.child? label with
      | none =>
          rw [stored, childOrBottom, found, Option.getD_none, stored_bottom]
      | some child =>
          have lower := (height_le_iff ordered).mp (Nat.le_refl _) label child found
          rw [List.length_cons] at beyond
          rw [stored, childOrBottom_of_child? found]
          exact inductionHypothesis (ordered.child? found) (by omega)

/-- A collapse at a depth that the tree does not exceed asks for nothing new. -/
theorem allHoisted_iff_of_height_le (bottomInside : Inside Domain.bottom)
    (bottomMarked : Marked Domain.bottom) {node : Node V} (ordered : node.Ordered)
    {depth : Nat} (low : node.height ≤ depth) (path : Path) :
    node.AllHoisted Inside Marked depth path ↔ node.AllAlong Inside path := by
  rw [allHoisted_iff_stored bottomMarked ordered, allAlong_iff_stored]
  constructor
  · rintro ⟨atBeginnings, _⟩ above isPrefix
    by_cases short : above.length ≤ depth
    · exact atBeginnings above isPrefix short
    · rw [stored_of_height_lt ordered (by omega)]
      exact bottomInside
  · intro all
    refine ⟨fun above isPrefix _ => all above isPrefix, ?_⟩
    intro reached below nonempty
    have longer : 0 < below.length := List.length_pos_iff.mpr nonempty
    rw [stored_of_height_lt ordered]
    · exact bottomMarked
    · rw [List.length_append, List.length_take]
      omega

theorem height_merge_le (sink : V → V) (op : MergeOp) (inherited : Inherited V)
    {left right : Node V} (leftOrdered : left.Ordered) (rightOrdered : right.Ordered)
    {bound : Nat} (leftLow : left.height ≤ bound) (rightLow : right.height ≤ bound) :
    (merge sink op inherited left right).height ≤ bound := by
  induction left, right using Node.induction₂ generalizing inherited bound with
  | step left right inductionHypothesis =>
      refine (height_le_iff (Ordered.merge sink op _ _ _ leftOrdered rightOrdered)).mpr ?_
      intro label child found
      rw [child?_merge sink op inherited leftOrdered rightOrdered] at found
      split at found
      · rename_i isBound
        have oneBinds : (left.child? label).isSome ∨ (right.child? label).isSome := by
          simpa using isBound
        have positive : 0 < bound := by
          rcases oneBinds with leftBound | rightBound
          · obtain ⟨other, otherFound⟩ := Option.isSome_iff_exists.mp leftBound
            have lower := (height_le_iff leftOrdered).mp leftLow label other otherFound
            exact Nat.zero_lt_of_lt lower
          · obtain ⟨other, otherFound⟩ := Option.isSome_iff_exists.mp rightBound
            have lower := (height_le_iff rightOrdered).mp rightLow label other otherFound
            exact Nat.zero_lt_of_lt lower
        have leftLower := height_childOrBottom_lt leftOrdered leftLow positive label
        have rightLower := height_childOrBottom_lt rightOrdered rightLow positive label
        have outcome := mergedChild_mergedChild? sink op
          (op.inherit sink inherited left.value right.value)
          (left.childOrBottom label) (right.childOrBottom label)
        rw [found] at outcome
        cases outcome with
        | keptLeft _ _ _ => exact leftLower
        | keptRight _ _ _ => exact rightLower
        | merged _ =>
            have lower := inductionHypothesis label oneBinds
              (op.inherit sink inherited left.value right.value)
              (leftOrdered.childOrBottom label) (rightOrdered.childOrBottom label)
              (Nat.le_sub_one_of_lt leftLower) (Nat.le_sub_one_of_lt rightLower)
            omega
      · exact nomatch found

theorem height_normalize_le (sink : V → V) {node : Node V} (ordered : node.Ordered) :
    (node.normalize sink).height ≤ node.height :=
  height_merge_le sink .normalize .nothing ordered ordered_bottom (Nat.le_refl _) (Nat.zero_le _)

theorem height_flattenAt_le (mark : V → V) (node : Node V) (depth : Nat) :
    (node.flattenAt mark depth).height ≤ depth := by
  induction depth generalizing node with
  | zero =>
      cases node
      exact Nat.le_refl 0
  | succ depth inductionHypothesis =>
      cases node with
      | mk value children =>
          rw [flattenAt, flattenAllAt_eq_map, height_mk_le_iff, List.forall_mem_map]
          intro entry _
          exact Nat.lt_succ_of_le (inductionHypothesis entry.2)

/-- A collapse at a depth that the tree does not exceed finds nothing to move. -/
theorem flattenAt_of_height_le (mark : V → V) {node : Node V} {depth : Nat}
    (low : node.height ≤ depth) : node.flattenAt mark depth = node := by
  induction node using Node.induction generalizing depth with
  | step value children inductionHypothesis =>
      rw [height_mk_le_iff] at low
      cases depth with
      | zero =>
          cases children with
          | nil =>
              rfl
          | cons entry rest =>
              exact absurd (low entry List.mem_cons_self) (Nat.not_lt_zero _)
      | succ depth =>
          have unchanged (entry : PathElement × Node V) (member : entry ∈ children) :
              (entry.1, entry.2.flattenAt mark depth) = id entry := by
            rw [inductionHypothesis entry member (Nat.le_of_lt_succ (low entry member))]
            rfl
          rw [flattenAt, flattenAllAt_eq_map, List.map_congr_left unchanged, List.map_id]

end Node

end AliasTaint
