import AliasTaint.Proofs.Tree.Along

/-!
# Values that are changed or moved up

What a change of all values, and a collapse at a depth, ask for along a path.  A change asks for the
changed values.  A collapse asks for the values along the path down to its depth and, if the path
gets that far, for everything stored below, as it is marked when it is moved up.

Collapsing at a smaller depth asks for more, as long as a value whose mark is inside is inside itself.
-/

namespace AliasTaint

open Domain

variable {V : Type} [Domain V] {Good Inside Marked : V → Prop}

namespace Node

/-! ## Changed values -/

omit [Domain V] in
theorem Stores.mapValues {After : V → Prop} {change : V → V}
    (changes : ∀ {value}, Good value → After (change value))
    {node : Node V} (stores : node.Stores Good) :
    (node.mapValues change).Stores After := by
  induction node using Node.induction with
  | step value children inductionHypothesis =>
      obtain ⟨goodValue, childrenStore⟩ := stores_mk.mp stores
      rw [Node.mapValues, mapValuesOf_eq_map]
      refine stores_mk.mpr ⟨changes goodValue, ?_⟩
      rw [List.forall_mem_map]
      intro entry member
      exact inductionHypothesis entry member (childrenStore entry member)

theorem allAlong_mapValues_iff {change : V → V}
    (keepsBottom : change Domain.bottom = Domain.bottom) {node : Node V} (path : Path) :
    (node.mapValues change).AllAlong Inside path ↔
      node.AllAlong (fun value => Inside (change value)) path := by
  induction path generalizing node with
  | nil =>
      rw [AllAlong, AllAlong, value_mapValues]
  | cons label path inductionHypothesis =>
      rw [AllAlong, AllAlong, value_mapValues, childOrBottom_mapValues keepsBottom,
        inductionHypothesis]

/-! ## Everything below a node -/

omit [Domain V] in
theorem mem_valuesDownOf {children : List (PathElement × Node V)} {value : V} :
    value ∈ valuesDownOf children ↔ ∃ entry ∈ children, value ∈ entry.2.valuesDown := by
  induction children with
  | nil =>
      simp [valuesDownOf]
  | cons entry rest inductionHypothesis =>
      simp [valuesDownOf, inductionHypothesis, or_comm]

omit [Domain V] in
theorem stores_iff_valuesDown {node : Node V} :
    node.Stores Good ↔ ∀ value ∈ node.valuesDown, Good value := by
  induction node using Node.induction with
  | step value children inductionHypothesis =>
      rw [stores_mk, valuesDown, List.forall_mem_cons]
      refine and_congr_right fun _ => ?_
      constructor
      · intro childrenStore below belowMember
        obtain ⟨entry, member, inEntry⟩ := mem_valuesDownOf.mp belowMember
        exact (inductionHypothesis entry member).mp (childrenStore entry member) below inEntry
      · intro all entry member
        refine (inductionHypothesis entry member).mpr ?_
        intro below inEntry
        exact all below (mem_valuesDownOf.mpr ⟨entry, member, inEntry⟩)

theorem absorb_eq_foldl (mark : V → V) (node : Node V) (gathered : V) :
    absorb mark gathered node = node.valuesDown.foldl (gather mark) gathered := by
  induction node using Node.induction generalizing gathered with
  | step value children inductionHypothesis =>
      rw [absorb, valuesDown, List.foldl_cons]
      generalize gather mark gathered value = start
      induction children with
      | nil =>
          rfl
      | cons entry rest restHypothesis =>
          obtain ⟨entryAbsorbed, restAbsorbed⟩ := List.forall_mem_cons.mp inductionHypothesis
          rw [absorbAll, valuesDownOf, List.foldl_append, ← restHypothesis restAbsorbed]
          exact entryAbsorbed _

theorem absorbAll_eq_foldl (mark : V → V) (children : List (PathElement × Node V)) (gathered : V) :
    absorbAll mark gathered children = (valuesDownOf children).foldl (gather mark) gathered := by
  induction children with
  | nil =>
      rfl
  | cons entry rest inductionHypothesis =>
      rw [absorbAll, valuesDownOf, List.foldl_append, ← inductionHypothesis, absorb_eq_foldl]

section Gathering

variable [SemilatticeOn Good] {mark : V → V} (marks : JoinMapOn Good Good mark)

include marks

theorem good_gathered {values : List V} (good : ∀ value ∈ values, Good value)
    {gathered : V} (goodGathered : Good gathered) :
    Good (values.foldl (gather mark) gathered) := by
  induction values generalizing gathered with
  | nil =>
      exact goodGathered
  | cons value rest inductionHypothesis =>
      obtain ⟨goodValue, goodRest⟩ := List.forall_mem_cons.mp good
      refine inductionHypothesis goodRest ?_
      unfold gather
      split
      · exact goodGathered
      · exact JoinClosed.join goodGathered (marks.good goodValue)

theorem inside_gathered_iff (ideal : Ideal Good Inside)
    {values : List V} (good : ∀ value ∈ values, Good value)
    {gathered : V} (goodGathered : Good gathered) :
    Inside (values.foldl (gather mark) gathered) ↔
      Inside gathered ∧ ∀ value ∈ values, Inside (mark value) := by
  induction values generalizing gathered with
  | nil =>
      exact (and_iff_left nofun).symm
  | cons value rest inductionHypothesis =>
      obtain ⟨goodValue, goodRest⟩ := List.forall_mem_cons.mp good
      have goodMarked := marks.good goodValue
      have gatherInside : Inside (gather mark gathered value) ↔
          Inside gathered ∧ Inside (mark value) := by
        unfold gather
        split
        · rename_i nothing
          rw [(SemilatticeOn.isBottom_iff goodValue).mp nothing, marks.bottom]
          exact (and_iff_left ideal.bottom).symm
        · exact ideal.join_iff goodGathered goodMarked
      have goodGather : Good (gather mark gathered value) :=
        good_gathered marks (List.forall_mem_singleton.mpr goodValue) goodGathered
      rw [List.foldl_cons, inductionHypothesis goodRest goodGather, gatherInside,
        List.forall_mem_cons, and_assoc]

end Gathering

/-! ## Collapses -/

/-- Every value along a path is inside, down to a depth; if the path gets that far, the values stored
below are inside when marked. -/
def AllHoisted (Inside Marked : V → Prop) : Nat → Path → Node V → Prop
  | 0, _, node => Inside node.value ∧ ∀ entry ∈ node.children, entry.2.Stores Marked
  | _ + 1, [], node => Inside node.value
  | depth + 1, label :: path, node =>
      Inside node.value ∧ AllHoisted Inside Marked depth path (node.childOrBottom label)

theorem flattenAt_bottom (mark : V → V) (depth : Nat) :
    (bottom : Node V).flattenAt mark depth = bottom := by
  cases depth <;> rfl

theorem child?_flattenAt_succ (mark : V → V) (node : Node V) (depth : Nat) (label : PathElement) :
    (node.flattenAt mark (depth + 1)).child? label =
      (node.child? label).map fun child => child.flattenAt mark depth := by
  cases node with
  | mk value children =>
      rw [flattenAt, flattenAllAt_eq_map]
      exact Entries.lookup_mapValues (fun _ child => child.flattenAt mark depth) label children

theorem childOrBottom_flattenAt_succ
    (mark : V → V) (node : Node V) (depth : Nat) (label : PathElement) :
    (node.flattenAt mark (depth + 1)).childOrBottom label =
      (node.childOrBottom label).flattenAt mark depth := by
  rw [childOrBottom, childOrBottom, child?_flattenAt_succ]
  cases node.child? label with
  | none =>
      exact (flattenAt_bottom mark depth).symm
  | some child =>
      rfl

theorem value_flattenAt_succ (mark : V → V) (node : Node V) (depth : Nat) :
    (node.flattenAt mark (depth + 1)).value = node.value := by
  cases node
  rfl

theorem flattenAt_zero (mark : V → V) (node : Node V) :
    node.flattenAt mark 0 = leaf (node.collapse mark) := by
  cases node with
  | mk value children =>
      rw [flattenAt, flatten, absorbAll_eq_foldl]
      rfl

section Collapsing

variable [SemilatticeOn Good] {mark : V → V} (marks : JoinMapOn Good Good mark)

include marks

theorem Stores.flattenAt {node : Node V} (stores : node.Stores Good) (depth : Nat) :
    (node.flattenAt mark depth).Stores Good := by
  induction node using Node.induction generalizing depth with
  | step value children inductionHypothesis =>
      obtain ⟨goodValue, childrenStore⟩ := stores_mk.mp stores
      cases depth with
      | zero =>
          have goodBelow := (List.forall_mem_cons.mp (stores_iff_valuesDown.mp stores)).2
          rw [Node.flattenAt, flatten, absorbAll_eq_foldl]
          exact stores_leaf (good_gathered marks goodBelow goodValue)
      | succ depth =>
          rw [Node.flattenAt, flattenAllAt_eq_map]
          refine stores_mk.mpr ⟨goodValue, ?_⟩
          rw [List.forall_mem_map]
          intro entry member
          exact inductionHypothesis entry member (childrenStore entry member) depth

theorem allAlong_flattenAt_iff (ideal : Ideal Good Inside)
    {node : Node V} (stores : node.Stores Good) (depth : Nat) (path : Path) :
    (node.flattenAt mark depth).AllAlong Inside path ↔
      node.AllHoisted Inside (fun value => Inside (mark value)) depth path := by
  induction depth generalizing node path with
  | zero =>
      cases node with
      | mk value children =>
          obtain ⟨goodValue, goodBelow⟩ :=
            List.forall_mem_cons.mp (stores_iff_valuesDown.mp stores)
          have belowInside :
              (∀ below ∈ valuesDownOf children, Inside (mark below)) ↔
                ∀ entry ∈ children, entry.2.Stores fun below => Inside (mark below) := by
            simp only [mem_valuesDownOf, stores_iff_valuesDown]
            exact ⟨fun all entry member below inEntry => all below ⟨entry, member, inEntry⟩,
              fun all below ⟨entry, member, inEntry⟩ => all entry member below inEntry⟩
          rw [Node.flattenAt, flatten, allAlong_leaf_iff ideal.bottom, absorbAll_eq_foldl,
            inside_gathered_iff marks ideal goodBelow goodValue, belowInside]
          rfl
  | succ depth inductionHypothesis =>
      cases path with
      | nil =>
          rw [AllAlong, AllHoisted, value_flattenAt_succ]
      | cons label path =>
          rw [AllAlong, AllHoisted, value_flattenAt_succ, childOrBottom_flattenAt_succ,
            inductionHypothesis (stores.childOrBottom label)]

end Collapsing

/-! ## Comparing collapses -/

section Wider

variable [SemilatticeOn Good] {Wider WiderMarked : V → Prop}
  (inside : ∀ value, Good value → Inside value → Wider value)
  (marked : ∀ value, Good value → Marked value → WiderMarked value)
  (hoisted : ∀ value, Good value → Marked value → Wider value)
  (bottomMarked : Marked Domain.bottom)

include marked hoisted bottomMarked

theorem allHoisted_of_below {node : Node V} (stores : node.Stores Good)
    (valueInside : Wider node.value)
    (below : ∀ entry ∈ node.children, entry.2.Stores Marked)
    (depth : Nat) (path : Path) :
    node.AllHoisted Wider WiderMarked depth path := by
  induction depth generalizing node path with
  | zero =>
      refine ⟨valueInside, ?_⟩
      intro entry member stored storedMember
      exact marked _ (stores.children entry member stored storedMember)
        (below entry member stored storedMember)
  | succ depth inductionHypothesis =>
      cases path with
      | nil =>
          exact valueInside
      | cons label path =>
          have childStores := stores.childOrBottom label
          have childMarked := stores_childOrBottom bottomMarked below label
          exact ⟨valueInside, inductionHypothesis childStores
            (hoisted _ childStores.value childMarked.value) childMarked.children path⟩

include inside

/-- A collapse at a smaller depth asks for more. -/
theorem AllHoisted.deeper {node : Node V} (stores : node.Stores Good)
    {shallow deep : Nat} (deeper : shallow ≤ deep) {path : Path}
    (all : node.AllHoisted Inside Marked shallow path) :
    node.AllHoisted Wider WiderMarked deep path := by
  induction shallow generalizing node deep path with
  | zero =>
      have valueInside := inside _ stores.value all.1
      exact allHoisted_of_below marked hoisted bottomMarked stores valueInside all.2 deep path
  | succ shallow inductionHypothesis =>
      obtain ⟨deep, rfl⟩ : ∃ less, deep = less + 1 := ⟨deep - 1, by omega⟩
      cases path with
      | nil =>
          exact inside _ stores.value all
      | cons label path =>
          have childDeeper : shallow ≤ deep := by omega
          exact ⟨inside _ stores.value all.1,
            inductionHypothesis (stores.childOrBottom label) childDeeper all.2⟩

end Wider

/-- A collapse does not change what is shown above its depth. -/
theorem allHoisted_iff_of_length_lt {node : Node V} {depth : Nat} {path : Path}
    (short : path.length < depth) :
    node.AllHoisted Inside Marked depth path ↔ node.AllAlong Inside path := by
  induction path generalizing node depth with
  | nil =>
      cases depth with
      | zero =>
          exact absurd short (Nat.not_lt_zero _)
      | succ depth =>
          exact Iff.rfl
  | cons label path inductionHypothesis =>
      cases depth with
      | zero =>
          exact absurd short (Nat.not_lt_zero _)
      | succ depth =>
          rw [AllHoisted, AllAlong, inductionHypothesis (Nat.lt_of_succ_lt_succ short)]

/-- A collapse asks for the path itself, if a value whose mark is inside is inside. -/
theorem AllHoisted.allAlong [SemilatticeOn Good]
    (hoisted : ∀ value, Good value → Marked value → Inside value)
    (bottomMarked : Marked Domain.bottom) {node : Node V} (stores : node.Stores Good)
    {depth : Nat} {path : Path} (all : node.AllHoisted Inside Marked depth path) :
    node.AllAlong Inside path := by
  -- Below the end of the path a collapse changes nothing.
  have deeper : depth ≤ depth + (path.length + 1) := Nat.le_add_right _ _
  have past : path.length < depth + (path.length + 1) := by omega
  exact (allHoisted_iff_of_length_lt past).mp
    (all.deeper (fun _ _ inside => inside) (fun _ _ marked => marked) hoisted bottomMarked stores
      deeper)

theorem stores_iff_allAlong (bottomInside : Inside Domain.bottom)
    {node : Node V} (ordered : node.Ordered) :
    node.Stores Inside ↔ ∀ path, node.AllAlong Inside path := by
  constructor
  · intro stores path
    induction path generalizing node with
    | nil =>
        exact stores.value
    | cons label path inductionHypothesis =>
        exact ⟨stores.value, inductionHypothesis (ordered.childOrBottom label)
          (stores_childOrBottom bottomInside stores.children label)⟩
  · intro all
    induction node using Node.induction with
    | step value children inductionHypothesis =>
        refine stores_mk.mpr ⟨all [], ?_⟩
        intro entry member
        have found : (mk value children).child? entry.1 = some entry.2 :=
          ordered.increasing.lookup_eq_some_iff.mpr member
        refine inductionHypothesis entry member (ordered.child? found) ?_
        intro path
        have through := (all (entry.1 :: path)).2
        rw [childOrBottom_of_child? found] at through
        exact through

/-- If marks make no difference, a collapse asks for all paths that part from the given one below its
depth. -/
theorem allHoisted_self_iff (bottomInside : Inside Domain.bottom)
    {node : Node V} (ordered : node.Ordered) (depth : Nat) (path : Path) :
    node.AllHoisted Inside Inside depth path ↔
      node.AllAlong Inside path ∧
        (depth ≤ path.length → ∀ below, node.AllAlong Inside (path.take depth ++ below)) := by
  induction depth generalizing node path with
  | zero =>
      have everywhere : node.AllHoisted Inside Inside 0 path ↔ node.Stores Inside := by
        cases node
        exact stores_mk.symm
      rw [everywhere, stores_iff_allAlong bottomInside ordered]
      exact ⟨fun all => ⟨all path, fun _ => all⟩, fun all => all.2 (Nat.zero_le _)⟩
  | succ depth inductionHypothesis =>
      cases path with
      | nil =>
          exact (and_iff_left nofun).symm
      | cons label path =>
          rw [AllHoisted, inductionHypothesis (ordered.childOrBottom label)]
          simp only [AllAlong, List.take_succ_cons, List.cons_append, List.length_cons,
            Nat.add_le_add_iff_right]
          constructor
          · rintro ⟨valueInside, childInside, belowInside⟩
            exact ⟨⟨valueInside, childInside⟩,
              fun reached below => ⟨valueInside, belowInside reached below⟩⟩
          · rintro ⟨⟨valueInside, childInside⟩, belowInside⟩
            exact ⟨valueInside, childInside, fun reached below => (belowInside reached below).2⟩

end Node

end AliasTaint
