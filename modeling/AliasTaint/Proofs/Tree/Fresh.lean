import AliasTaint.Proofs.Cumulative
import AliasTaint.Proofs.Tree.NormalOn

/-!
# Fresh values

A value is fresh at its path if what is stored above the path does not cover it when sunk down to it.
A tree is normal if it is pruned and all its values are fresh.

A join drops a value exactly if it is not fresh.  So if the joins of what two trees store are fresh, a
join stores them all, path by path, and a write stores what it writes and changes nothing else.  These
facts need no well-formed values: nothing is said of the join of a value with itself.
-/

namespace AliasTaint

open Domain

variable {V : Type} [Domain V]

/-! ## Values along paths -/

/-- What the values above a path sink into it, given what is sunk into the beginning of the path. -/
def sunkAlong (sink : V → V) (inherited : V) (values : Path → V) : Path → V
  | [] => inherited
  | label :: path =>
      sunkAlong sink (sinkIntoChild sink inherited (values []))
        (fun below => values (label :: below)) path

/-- No value above bottom is covered by what the values above its path sink into it. -/
def Fresh (sink : V → V) (inherited : V) (values : Path → V) : Prop :=
  ∀ path, isBottom (values path) = false →
    leq (values path) (sunkAlong sink inherited values path) = false

theorem Fresh.below {sink : V → V} {inherited : V} {values : Path → V}
    (fresh : Fresh sink inherited values) (label : PathElement) :
    Fresh sink (sinkIntoChild sink inherited (values [])) fun path => values (label :: path) :=
  fun path => fresh (label :: path)

section Parts

variable [CumulativeDomain V] {sink : V → V}

/-- A child inherits more from a node that inherits and stores more. -/
def SinksMonotone (sink : V → V) : Prop :=
  ∀ {ancestors upper value other : V}, leq ancestors upper → leq value other →
    leq (sinkIntoChild sink ancestors value) (sinkIntoChild sink upper other)

theorem sinksMonotone_unchanged : SinksMonotone (id : V → V) := by
  intro ancestors upper value other less lessValue
  rw [sinkIntoChild_id, sinkIntoChild_id]
  exact CumulativeDomain.join_mono less lessValue

theorem sinksMonotone_nothing : SinksMonotone fun _ : V => bottom := by
  intro ancestors upper value other _ _
  rw [sinkIntoChild_nothing, sinkIntoChild_nothing]
  exact CumulativeDomain.leq_refl _

omit [CumulativeDomain V] in
theorem sunkAlong_mono (grows : SinksMonotone sink) {lower inherited : V}
    (less : leq lower inherited) {values others : Path → V}
    (lessValues : ∀ path, leq (values path) (others path)) (path : Path) :
    leq (sunkAlong sink lower values path) (sunkAlong sink inherited others path) := by
  induction path generalizing lower inherited values others with
  | nil =>
      exact less
  | cons label path inductionHypothesis =>
      exact inductionHypothesis (grows less (lessValues []))
        fun below => lessValues (label :: below)

/-- Values stay fresh if some of the others are taken away. -/
theorem Fresh.of_part (grows : SinksMonotone sink) {inherited : V} {values part : Path → V}
    (fresh : Fresh sink inherited values)
    (isPart : ∀ path, part path = bottom ∨ part path = values path) :
    Fresh sink inherited part := by
  intro path filled
  have lessValues : ∀ path, leq (part path) (values path) := by
    intro path
    rcases isPart path with absent | same
    · rw [absent]
      exact CumulativeDomain.bottom_leq _
    · rw [same]
      exact CumulativeDomain.leq_refl _
  rcases isPart path with absent | same
  · rw [absent, CumulativeDomain.isBottom_bottom] at filled
    exact nomatch filled
  · rw [same] at filled ⊢
    have notCovered := fresh path filled
    rw [Bool.eq_false_iff] at notCovered ⊢
    refine mt (fun covered => CumulativeDomain.leq_trans covered ?_) notCovered
    exact sunkAlong_mono grows (CumulativeDomain.leq_refl _) lessValues path

end Parts

namespace Node

theorem sunkFrom_eq_sunkAlong (sink : V → V) (inherited : V) (path : Path) (node : Node V) :
    node.sunkFrom sink inherited path =
      sunkAlong sink inherited (fun path => node.stored path) path := by
  induction path generalizing inherited node with
  | nil =>
      rfl
  | cons label path inductionHypothesis =>
      exact inductionHypothesis _ _

/-- A tree is normal if it is pruned and its stored values are fresh. -/
theorem normalUnder_iff_fresh (nothing : Domain.isBottom (Domain.bottom : V))
    {sink : V → V} {inherited : V} {node : Node V} :
    node.NormalUnder sink inherited ↔
      node.Pruned ∧ Fresh sink inherited fun path => node.stored path := by
  constructor
  · intro normal
    refine ⟨normal.pruned, ?_⟩
    intro path filled
    rw [← sunkFrom_eq_sunkAlong]
    simp only [stored_eq_descend?] at filled ⊢
    cases reached : node.descend? path with
    | none =>
        rw [reached, Option.map_none, Option.getD_none, nothing] at filled
        exact nomatch filled
    | some below =>
        rw [reached] at filled
        exact (normal path below reached).fresh filled
  · rintro ⟨pruned, fresh⟩ path below reached
    refine ⟨?_, pruned path below reached⟩
    have isStored : node.stored path = below.value := by
      rw [stored_eq_descend?, reached]
      rfl
    rw [sunkFrom_eq_sunkAlong, ← isStored]
    exact fresh path

/-! ## Pruned results -/

theorem pruned_leaf (value : V) : (leaf value).Pruned :=
  pruned_iff.mpr nofun

/-- A child of a pruned node stores something and is pruned. -/
theorem Pruned.of_isSome {node : Node V} (pruned : node.Pruned) {label : PathElement}
    (isBound : (node.child? label).isSome) :
    (node.childOrBottom label).isBottom = false ∧ (node.childOrBottom label).Pruned := by
  obtain ⟨child, found⟩ := Option.isSome_iff_exists.mp isBound
  rw [childOrBottom_of_child? found]
  exact pruned_iff.mp pruned label child found

/-- A merge is pruned if the sides that it trusts are. -/
theorem pruned_merge (sink : V → V) (op : MergeOp) (inherited : Inherited V) {left right : Node V}
    (leftOrdered : left.Ordered) (rightOrdered : right.Ordered)
    (sides : op.trustsSides → left.Pruned ∧ right.Pruned) :
    (merge sink op inherited left right).Pruned := by
  induction left, right using Node.induction₂ generalizing inherited with
  | step left right inductionHypothesis =>
      refine pruned_iff.mpr ?_
      intro label child found
      rw [child?_merge sink op inherited leftOrdered rightOrdered] at found
      split at found
      · rename_i isBound
        have oneBinds : (left.child? label).isSome ∨ (right.child? label).isSome := by
          simpa using isBound
        have outcome := mergedChild_mergedChild? sink op
          (op.inherit sink inherited left.value right.value)
          (left.childOrBottom label) (right.childOrBottom label)
        rw [found] at outcome
        cases outcome with
        | keptLeft trusted _ rightEmpty =>
            obtain ⟨leftPruned, rightPruned⟩ := sides trusted
            rw [rightPruned.child?_eq_none rightEmpty] at oneBinds
            exact leftPruned.of_isSome (by simpa using oneBinds)
        | keptRight trusted _ leftEmpty =>
            obtain ⟨leftPruned, rightPruned⟩ := sides trusted
            rw [leftPruned.child?_eq_none leftEmpty] at oneBinds
            exact rightPruned.of_isSome (by simpa using oneBinds)
        | merged filled =>
            refine ⟨filled, inductionHypothesis label oneBinds _
              (leftOrdered.childOrBottom label) (rightOrdered.childOrBottom label) ?_⟩
            intro trusted
            exact ⟨(sides trusted).1.childOrBottom label, (sides trusted).2.childOrBottom label⟩
      · exact nomatch found

theorem Pruned.merge (sink : V → V) (op : MergeOp) (inherited : Inherited V) {left right : Node V}
    (leftOrdered : left.Ordered) (rightOrdered : right.Ordered)
    (leftPruned : left.Pruned) (rightPruned : right.Pruned) :
    (merge sink op inherited left right).Pruned :=
  pruned_merge sink op inherited leftOrdered rightOrdered fun _ => ⟨leftPruned, rightPruned⟩

theorem pruned_normalize (sink : V → V) {node : Node V} (ordered : node.Ordered) :
    (node.normalize sink).Pruned :=
  pruned_merge sink .normalize .nothing ordered ordered_bottom nofun

theorem Pruned.rawRead {node : Node V} (pruned : node.Pruned) (path : Path) :
    (node.rawRead path).Pruned := by
  induction path generalizing node with
  | nil =>
      exact pruned
  | cons label path inductionHypothesis =>
      rw [rawRead_cons]
      exact inductionHypothesis (pruned.childOrBottom label)

theorem Pruned.withChild {node child : Node V} (pruned : node.Pruned) (label : PathElement)
    (childPruned : child.Pruned) : (node.withChild label child).Pruned := by
  refine pruned_iff.mpr ?_
  intro other found isFound
  rw [child?_withChild] at isFound
  split at isFound
  · obtain ⟨rfl, filled⟩ := nonBottom?_eq_some_iff.mp isFound
    exact ⟨filled, childPruned⟩
  · exact pruned_iff.mp pruned other found isFound

theorem Pruned.graftUnder (sink : V → V) {kind : UpdateKind} {grafted : Node V}
    (graftedOrdered : grafted.Ordered) (graftedPruned : grafted.Pruned) (path : Path)
    (inherited : V) {node : Node V} (ordered : node.Ordered) (pruned : node.Pruned) :
    (graftUnder sink kind grafted inherited path node).Pruned := by
  induction path generalizing inherited node with
  | nil =>
      cases kind with
      | strong =>
          exact Pruned.merge sink .join _ ordered_bottom graftedOrdered pruned_bottom graftedPruned
      | weak =>
          exact Pruned.merge sink .join _ ordered graftedOrdered pruned graftedPruned
  | cons label path inductionHypothesis =>
      exact pruned.withChild label
        (inductionHypothesis _ (ordered.childOrBottom label) (pruned.childOrBottom label))

/-! ## Stored results -/

variable [CumulativeDomain V] {sink : V → V}

theorem stored_eq_bottom {node : Node V} (isNothing : node.isBottom) (path : Path) :
    node.stored path = Domain.bottom := by
  rw [eq_bottom_of_isBottom isNothing, stored_bottom]

omit [CumulativeDomain V] in
theorem store_join_of_fresh {inherited : Inherited V} {left right : V}
    (fresh : Domain.isBottom (join left right) = false →
      Domain.leq (join left right) inherited.result = false) :
    MergeOp.join.store inherited left right = join left right := by
  have notDropped : ¬ (!Domain.isBottom (join left right) &&
      Domain.leq (join left right) inherited.result) = true := by
    rw [Bool.and_eq_true, Bool.not_eq_true']
    rintro ⟨filled, covered⟩
    rw [fresh filled] at covered
    exact nomatch covered
  exact if_neg notDropped

/-- A join stores all that its sides store, if that is fresh. -/
theorem stored_merge_of_fresh {inherited : Inherited V} {left right : Node V}
    (leftOrdered : left.Ordered) (rightOrdered : right.Ordered)
    (fresh : Fresh sink inherited.result fun path => join (left.stored path) (right.stored path))
    (path : Path) :
    (merge sink .join inherited left right).stored path =
      join (left.stored path) (right.stored path) := by
  have storedValue : MergeOp.join.store inherited left.value right.value =
      join left.value right.value :=
    store_join_of_fresh (fresh [])
  induction path generalizing inherited left right with
  | nil =>
      rw [stored, value_merge, storedValue]
      rfl
  | cons label path inductionHypothesis =>
      have passedOn : (MergeOp.join.inherit sink inherited left.value right.value).result =
          sinkIntoChild sink inherited.result (join left.value right.value) := by
        rw [← storedValue]
        rfl
      have freshBelow : Fresh sink
          (MergeOp.join.inherit sink inherited left.value right.value).result
          fun path => join ((left.childOrBottom label).stored path)
            ((right.childOrBottom label).stored path) := by
        rw [passedOn]
        exact fresh.below label
      have merged := inductionHypothesis (leftOrdered.childOrBottom label)
        (rightOrdered.childOrBottom label) freshBelow (store_join_of_fresh (freshBelow []))
      simp only [stored]
      rcases childOrBottom_merge sink .join inherited leftOrdered rightOrdered label with
        ⟨leftAbsent, rightAbsent, absent⟩ | ⟨found, outcome, isFound⟩
      · rw [absent, leftAbsent, rightAbsent, stored_bottom, CumulativeDomain.join_bottom]
      · rw [isFound]
        cases outcome with
        | dropped lower _ =>
            cases lower
        | keptLeft _ _ rightEmpty =>
            rw [stored_eq_bottom rightEmpty, CumulativeDomain.join_bottom]
            rfl
        | keptRight _ _ leftEmpty =>
            rw [stored_eq_bottom leftEmpty, CumulativeDomain.bottom_join]
            rfl
        | merged _ =>
            exact merged
        | pruned empty =>
            rw [← merged, stored_eq_bottom empty]
            exact stored_bottom path

theorem stored_withChild_cons (node child : Node V) (changed label : PathElement) (path : Path) :
    (node.withChild changed child).stored (label :: path) =
      if label = changed then child.stored path else node.stored (label :: path) := by
  rw [stored, childOrBottom_withChild]
  split <;> rfl

omit [CumulativeDomain V] in
theorem stored_leaf (value : V) (path : Path) :
    (leaf value).stored path = if path = [] then value else Domain.bottom := by
  cases path with
  | nil =>
      rfl
  | cons label path =>
      exact stored_bottom path

/-- A write joins its value to what is stored at its path, if that leaves all values fresh. -/
theorem stored_graftUnder_of_fresh {value : V} {path : Path} {inherited : V} {node : Node V}
    (ordered : node.Ordered)
    (fresh : Fresh sink inherited fun other =>
      join (node.stored other) (if other = path then value else Domain.bottom))
    (other : Path) :
    (graftUnder sink .weak (leaf value) inherited path node).stored other =
      join (node.stored other) (if other = path then value else Domain.bottom) := by
  induction path generalizing inherited node other with
  | nil =>
      simp only [← stored_leaf] at fresh ⊢
      exact stored_merge_of_fresh ordered (ordered_leaf value) fresh other
  | cons label path inductionHypothesis =>
      cases other with
      | nil =>
          rw [graftUnder, stored, value_withChild, if_neg (List.cons_ne_nil label path).symm,
            CumulativeDomain.join_bottom]
          rfl
      | cons first other =>
          rw [graftUnder, stored_withChild_cons]
          split
          · rename_i same
            subst same
            have freshBelow := fresh.below first
            simp only [List.cons.injEq, true_and, reduceCtorEq, if_false,
              CumulativeDomain.join_bottom] at freshBelow ⊢
            exact inductionHypothesis (ordered.childOrBottom first) freshBelow other
          · rename_i different
            have elsewhere : first :: other ≠ label :: path :=
              fun same => different (List.cons.inj same).1
            rw [if_neg elsewhere, CumulativeDomain.join_bottom]

/-! ## Normal nodes -/

/-- To restore the normal form of a normal node changes nothing. -/
theorem NormalUnder.merge_normalize_eq {inherited : Inherited V} {node : Node V}
    (ordered : node.Ordered) (normal : node.NormalUnder sink inherited.result) :
    merge sink .normalize inherited node bottom = node := by
  induction node using Node.induction generalizing inherited with
  | step value children inductionHypothesis =>
      have unchanged : join value Domain.bottom = value := CumulativeDomain.join_bottom value
      have isStored : MergeOp.normalize.store inherited value Domain.bottom = value := by
        have fresh := normal.locally.fresh
        rw [← unchanged] at fresh
        exact (store_join_of_fresh fresh).trans unchanged
      refine eq_of_child?_eq (Ordered.merge sink .normalize _ _ _ ordered ordered_bottom) ordered
        ((value_merge sink .normalize inherited _ _).trans isStored) ?_
      intro label
      rw [child?_merge sink .normalize inherited ordered ordered_bottom]
      cases found : (mk value children).child? label with
      | none =>
          rfl
      | some child =>
          have passedOn : (MergeOp.normalize.inherit sink inherited value Domain.bottom).result =
              sinkIntoChild sink inherited.result value := by
            rw [MergeOp.inherit, isStored]
          have below := normal.child found
          rw [Node.value, ← passedOn] at below
          have childUnchanged := inductionHypothesis (label, child) (Entries.mem_of_lookup found)
            (ordered.child? found) below
          have filled := normal.locally.filled label child found
          rw [childOrBottom_of_child? found, childOrBottom_bottom]
          have merged : mergedChild? sink .normalize
              (MergeOp.normalize.inherit sink inherited value Domain.bottom) child bottom =
              (merge sink .normalize
                (MergeOp.normalize.inherit sink inherited value Domain.bottom) child
                bottom).nonBottom? := rfl
          refine merged.trans ?_
          rw [childUnchanged, nonBottom?, filled]
          rfl

theorem NormalUnder.normalize_eq {node : Node V} (ordered : node.Ordered)
    (normal : node.NormalUnder sink Domain.bottom) : node.normalize sink = node := by
  have unchanged : merge sink .normalize .nothing node bottom = node :=
    NormalUnder.merge_normalize_eq ordered normal
  exact unchanged

end Node

end AliasTaint
