import AliasTaint.Proofs.Tree.Order

/-!
# Joins and meets of trees

Merging two trees merges what they show, path by path: the join of two trees shows the join of the
shown values, and their meet shows the meet.  That holds at paths where both trees, one tree or no
tree stores a node.

Each bound is an induction on the path that compares three descents, one in each tree and one in the
result.  What carries it is how much is shown at the three nodes, and how that compares with what the
merge itself passes down.
-/

namespace AliasTaint

open Domain LawfulDomain

variable {V : Type} [Domain V]

/-! ## Stored values -/

namespace MergeOp

theorem trusted_upper {op : MergeOp} (trusted : op.trustsSides) : op.isUpper := by
  cases op with
  | join => rfl
  | widen => rfl
  | normalize => rfl
  | meet => exact nomatch trusted
  | narrow => exact nomatch trusted

variable [LawfulDomain V]

theorem store_leq_combine
    (op : MergeOp) (inherited : Inherited V) (left right : V) :
    leq (op.store inherited left right) (op.combine inherited left right) := by
  simp only [store]
  split
  · exact bottom_leq _
  · exact leq_refl _

/-- What is not stored is shown by the ancestors. -/
theorem combine_leq_join_store
    (op : MergeOp) (inherited : Inherited V) (left right : V) :
    leq (op.combine inherited left right)
      (Domain.join inherited.result (op.store inherited left right)) := by
  simp only [store]
  split
  · rename_i covered
    simp only [Bool.and_eq_true] at covered
    exact leq_join_of_leq_left _ covered.2
  · exact leq_join_right _ _

theorem leq_combine_left
    {op : MergeOp} (upper : op.isUpper) (inherited : Inherited V) (left right : V) :
    leq left (op.combine inherited left right) := by
  cases op with
  | join => exact leq_join_left left right
  | widen => exact leq_widen_left left right
  | normalize => exact leq_join_left left right
  | meet => exact nomatch upper
  | narrow => exact nomatch upper

theorem leq_combine_right
    {op : MergeOp} (upper : op.isUpper) (inherited : Inherited V) (left right : V) :
    leq right (op.combine inherited left right) := by
  cases op with
  | join => exact leq_join_right left right
  | widen => exact leq_widen_right left right
  | normalize => exact leq_join_right left right
  | meet => exact nomatch upper
  | narrow => exact nomatch upper

end MergeOp

namespace Node

variable [LawfulDomain V] {sink : V → V}

/-! ## Upper bounds -/

/-- An upper merge shows at least what both sides show. -/
theorem join_showFrom_leq_merge
    (monotone : MonotoneMap sink)
    {op : MergeOp} (upper : op.isUpper) (inherited : Inherited V) {left right : Node V}
    (leftOrdered : left.Ordered) (rightOrdered : right.Ordered)
    {leftShown rightShown shown : V}
    (leftCovered : Domain.leq leftShown shown)
    (rightCovered : Domain.leq rightShown shown)
    (resultCovered :
      Domain.leq (join inherited.result (op.store inherited left.value right.value)) shown)
    (path : Path) :
    Domain.leq
      (join (left.showFrom sink leftShown path) (right.showFrom sink rightShown path))
      ((merge sink op inherited left right).showFrom sink shown path) := by
  induction path generalizing inherited left right leftShown rightShown shown with
  | nil =>
      exact join_leq leftCovered rightCovered
  | cons label path inductionHypothesis =>
      have leftPassed := sinkIntoChild_bottom_leq monotone leftCovered
      have rightPassed := sinkIntoChild_bottom_leq monotone rightCovered
      have resultPassed :
          Domain.leq (op.inherit sink inherited left.value right.value).result
            (sinkIntoChild sink Domain.bottom shown) :=
        sinkIntoChild_leq monotone (leq_join_of_leq_right _ resultCovered)
      have merged :
          Domain.leq
            (join (left.showFrom sink leftShown (label :: path))
              (right.showFrom sink rightShown (label :: path)))
            ((merge sink op (op.inherit sink inherited left.value right.value)
                (left.childOrBottom label) (right.childOrBottom label)).showFrom sink
              (join (sinkIntoChild sink Domain.bottom shown)
                (op.store (op.inherit sink inherited left.value right.value)
                  (left.childOrBottom label).value (right.childOrBottom label).value))
              path) := by
        have combined := MergeOp.combine_leq_join_store op
          (op.inherit sink inherited left.value right.value)
          (left.childOrBottom label).value (right.childOrBottom label).value
        have storeCovered := leq_trans combined (join_mono resultPassed (leq_refl _))
        refine inductionHypothesis _ (leftOrdered.childOrBottom label)
          (rightOrdered.childOrBottom label) (join_leq ?_ ?_) (join_leq ?_ ?_)
          (join_mono resultPassed (leq_refl _))
        · exact leq_join_of_leq_left _ leftPassed
        · exact leq_trans (MergeOp.leq_combine_left upper _ _ _) storeCovered
        · exact leq_join_of_leq_left _ rightPassed
        · exact leq_trans (MergeOp.leq_combine_right upper _ _ _) storeCovered
      rcases childOrBottom_merge sink op inherited leftOrdered rightOrdered label with
        ⟨leftAbsent, rightAbsent, absent⟩ | ⟨found, outcome, isFound⟩
      · simp only [showFrom, leftAbsent, rightAbsent, absent]
        exact join_leq
          (showFrom_mono monotone (join_mono leftPassed (leq_refl _)) bottom path)
          (showFrom_mono monotone (join_mono rightPassed (leq_refl _)) bottom path)
      · rw [showFrom.eq_2 sink shown, isFound]
        cases outcome with
        | dropped lower _ =>
            rw [lower] at upper
            cases upper
        | keptLeft _ _ rightEmpty =>
            refine join_leq
              (showFrom_mono monotone (join_mono leftPassed (leq_refl _)) _ path)
              (showFrom_leq_of_isBottom monotone rightEmpty (join_leq ?_ ?_) _ path)
            · exact leq_join_of_leq_left _ rightPassed
            · exact leq_of_isBottom (isBottom_value rightEmpty) _
        | keptRight _ _ leftEmpty =>
            refine join_leq
              (showFrom_leq_of_isBottom monotone leftEmpty (join_leq ?_ ?_) _ path)
              (showFrom_mono monotone (join_mono rightPassed (leq_refl _)) _ path)
            · exact leq_join_of_leq_left _ leftPassed
            · exact leq_of_isBottom (isBottom_value leftEmpty) _
        | merged _ =>
            rw [← value_merge sink] at merged
            exact merged
        | pruned empty =>
            rw [← value_merge sink] at merged
            refine leq_trans merged (showFrom_leq_of_isBottom monotone empty ?_ bottom path)
            exact join_mono (leq_refl _) (leq_of_isBottom (isBottom_value empty) _)

/-! ## Least upper bounds -/

/-- A join stores at every path at most what the two sides store there. -/
theorem stored_merge_leq_join
    (sink : V → V) {op : MergeOp} (isJoin : op = .join ∨ op = .normalize)
    (inherited : Inherited V) {left right : Node V}
    (leftOrdered : left.Ordered) (rightOrdered : right.Ordered) (path : Path) :
    Domain.leq ((merge sink op inherited left right).stored path)
      (join (left.stored path) (right.stored path)) := by
  induction path generalizing inherited left right with
  | nil =>
      rw [stored, value_merge]
      refine leq_trans (MergeOp.store_leq_combine op inherited left.value right.value) ?_
      rcases isJoin with rfl | rfl <;> exact leq_refl _
  | cons label path inductionHypothesis =>
      have nothing : Domain.isBottom ((bottom : Node V).stored path) :=
        isBottom_stored isBottom_bottom path
      simp only [stored]
      rcases childOrBottom_merge sink op inherited leftOrdered rightOrdered label with
        ⟨_, _, absent⟩ | ⟨found, outcome, isFound⟩
      · rw [absent]
        exact leq_of_isBottom nothing _
      · rw [isFound]
        cases outcome with
        | dropped _ _ => exact leq_of_isBottom nothing _
        | keptLeft _ _ _ => exact leq_join_left _ _
        | keptRight _ _ _ => exact leq_join_right _ _
        | merged _ =>
            exact inductionHypothesis _ (leftOrdered.childOrBottom label)
              (rightOrdered.childOrBottom label)
        | pruned _ => exact leq_of_isBottom nothing _

/-- If values that sink keep their joins, a tree that stores at most the join of two trees shows at
most the join of what they show. -/
theorem showFrom_leq_join_of_stored
    (monotone : MonotoneMap sink) (keepsJoins : JoinMap sink)
    (keepsBottom : Domain.isBottom (sink Domain.bottom))
    {node left right : Node V} {shown leftShown rightShown : V}
    (covered : Domain.leq shown (join leftShown rightShown))
    (storedCovered : ∀ path,
      Domain.leq (node.stored path) (join (left.stored path) (right.stored path)))
    (path : Path) :
    Domain.leq (node.showFrom sink shown path)
      (join (left.showFrom sink leftShown path) (right.showFrom sink rightShown path)) := by
  induction path generalizing node left right shown leftShown rightShown with
  | nil =>
      exact covered
  | cons label path inductionHypothesis =>
      have passed :=
        leq_trans (sinkIntoChild_bottom_leq monotone covered)
          (sinkIntoChild_bottom_join_leq monotone keepsJoins keepsBottom leftShown rightShown)
      apply inductionHypothesis
      · refine join_leq (leq_trans passed ?_) (leq_trans (storedCovered [label]) ?_)
        · exact join_mono (leq_join_left _ _) (leq_join_left _ _)
        · exact join_mono (leq_join_right _ _) (leq_join_right _ _)
      · intro below
        exact storedCovered (label :: below)

/-! ## Lower bounds -/

end Node

/-- The merge bounds two trees from below by the meet of what they show. -/
structure MergeOp.IsMeet (V : Type) [Domain V] (op : MergeOp) : Prop where
  lower : op.isUpper = false
  combines : ∀ (inherited : Inherited V) (left right : V),
    op.combine inherited left right =
      Domain.meet (Domain.join left inherited.left) (Domain.join right inherited.right)

theorem MergeOp.isMeet_meet : MergeOp.IsMeet V .meet where
  lower := rfl
  combines _ _ _ := rfl

theorem MergeOp.isMeet_narrow
    (narrowsToMeet : ∀ left right : V, Domain.narrow left right = Domain.meet left right) :
    MergeOp.IsMeet V .narrow where
  lower := rfl
  combines _ _ _ := narrowsToMeet _ _

namespace MergeOp.IsMeet

variable {op : MergeOp}

theorem left_inherit
    (isMeet : IsMeet V op) (sink : V → V) (inherited : Inherited V) (left right : V) :
    (op.inherit sink inherited left right).left =
      sinkIntoChild sink Domain.bottom (Domain.join left inherited.left) := by
  simp [MergeOp.inherit, isMeet.lower]

theorem right_inherit
    (isMeet : IsMeet V op) (sink : V → V) (inherited : Inherited V) (left right : V) :
    (op.inherit sink inherited left right).right =
      sinkIntoChild sink Domain.bottom (Domain.join right inherited.right) := by
  simp [MergeOp.inherit, isMeet.lower]

theorem not_trusted (isMeet : IsMeet V op) (trusted : op.trustsSides) : False := by
  have upper := MergeOp.trusted_upper trusted
  rw [isMeet.lower] at upper
  exact nomatch upper

end MergeOp.IsMeet

namespace Node

variable [LawfulDomain V] {sink : V → V}

/-- A lower merge shows at most what each side shows. -/
theorem merge_showFrom_leq_meet
    (monotone : MonotoneMap sink)
    {op : MergeOp} (isMeet : MergeOp.IsMeet V op) (inherited : Inherited V) {left right : Node V}
    (leftOrdered : left.Ordered) (rightOrdered : right.Ordered)
    {leftShown rightShown shown : V}
    (leftCovers : Domain.leq shown leftShown)
    (rightCovers : Domain.leq shown rightShown)
    (leftSeen : Domain.leq (join left.value inherited.left) leftShown)
    (rightSeen : Domain.leq (join right.value inherited.right) rightShown)
    (path : Path) :
    Domain.leq ((merge sink op inherited left right).showFrom sink shown path)
      (meet (left.showFrom sink leftShown path) (right.showFrom sink rightShown path)) := by
  induction path generalizing inherited left right leftShown rightShown shown with
  | nil =>
      exact leq_meet leftCovers rightCovers
  | cons label path inductionHypothesis =>
      have leftPassed := sinkIntoChild_bottom_leq monotone leftCovers
      have rightPassed := sinkIntoChild_bottom_leq monotone rightCovers
      -- Where the result stores nothing, it shows only what it passes on.
      have passedOn :
          Domain.leq
            ((bottom : Node V).showFrom sink
              (join (sinkIntoChild sink Domain.bottom shown) (bottom : Node V).value) path)
            (meet (left.showFrom sink leftShown (label :: path))
              (right.showFrom sink rightShown (label :: path))) := by
        refine leq_meet
          (showFrom_leq_of_isBottom monotone isBottom_bottom (join_leq ?_ (bottom_leq _)) _ path)
          (showFrom_leq_of_isBottom monotone isBottom_bottom (join_leq ?_ (bottom_leq _)) _ path)
        · exact leq_join_of_leq_left _ leftPassed
        · exact leq_join_of_leq_left _ rightPassed
      rcases childOrBottom_merge sink op inherited leftOrdered rightOrdered label with
        ⟨_, _, absent⟩ | ⟨found, outcome, isFound⟩
      · rw [showFrom.eq_2 sink shown, absent]
        exact passedOn
      · rw [showFrom.eq_2 sink shown, isFound]
        cases outcome with
        | dropped _ _ => exact passedOn
        | keptLeft trusted _ _ => exact (isMeet.not_trusted trusted).elim
        | keptRight trusted _ _ => exact (isMeet.not_trusted trusted).elim
        | pruned _ => exact passedOn
        | merged _ =>
            have leftChildSeen :
                Domain.leq
                  (join (left.childOrBottom label).value
                    (op.inherit sink inherited left.value right.value).left)
                  (join (sinkIntoChild sink Domain.bottom leftShown)
                    (left.childOrBottom label).value) := by
              rw [isMeet.left_inherit]
              exact join_leq (leq_join_right _ _)
                (leq_join_of_leq_left _ (sinkIntoChild_bottom_leq monotone leftSeen))
            have rightChildSeen :
                Domain.leq
                  (join (right.childOrBottom label).value
                    (op.inherit sink inherited left.value right.value).right)
                  (join (sinkIntoChild sink Domain.bottom rightShown)
                    (right.childOrBottom label).value) := by
              rw [isMeet.right_inherit]
              exact join_leq (leq_join_right _ _)
                (leq_join_of_leq_left _ (sinkIntoChild_bottom_leq monotone rightSeen))
            have storedLeq := MergeOp.store_leq_combine op
              (op.inherit sink inherited left.value right.value)
              (left.childOrBottom label).value (right.childOrBottom label).value
            rw [isMeet.combines] at storedLeq
            rw [Option.getD_some, value_merge]
            refine inductionHypothesis _ (leftOrdered.childOrBottom label)
              (rightOrdered.childOrBottom label) (join_leq ?_ ?_) (join_leq ?_ ?_)
              leftChildSeen rightChildSeen
            · exact leq_join_of_leq_left _ leftPassed
            · exact leq_trans storedLeq (leq_trans (meet_leq_left _ _) leftChildSeen)
            · exact leq_join_of_leq_left _ rightPassed
            · exact leq_trans storedLeq (leq_trans (meet_leq_right _ _) rightChildSeen)

/-- If values that sink keep their meets, the meet of what is passed on below two nodes is passed on
below a node that shows their meet. -/
theorem meet_showFrom_bottom_leq
    (monotone : MonotoneMap sink) (keepsMeets : MeetMap sink)
    (keepsBottom : Domain.isBottom (sink Domain.bottom))
    {leftShown rightShown shown : V}
    (covered : Domain.leq (meet leftShown rightShown) shown) (path : Path) :
    Domain.leq
      (meet ((bottom : Node V).showFrom sink leftShown path)
        ((bottom : Node V).showFrom sink rightShown path))
      ((bottom : Node V).showFrom sink shown path) := by
  induction path generalizing leftShown rightShown shown with
  | nil =>
      exact covered
  | cons label path inductionHypothesis =>
      have passed :=
        leq_trans
          (meet_leq_sinkIntoChild_bottom monotone keepsMeets keepsBottom leftShown rightShown)
          (sinkIntoChild_bottom_leq monotone covered)
      apply inductionHypothesis
      refine leq_trans (meet_mono ?_ ?_) (leq_join_of_leq_left _ passed)
      · exact join_leq (leq_refl _) (bottom_leq _)
      · exact join_leq (leq_refl _) (bottom_leq _)

/-- A lower merge shows at least the meet of what both sides show. -/
theorem meet_showFrom_leq_merge
    (monotone : MonotoneMap sink) (keepsMeets : MeetMap sink)
    (keepsBottom : Domain.isBottom (sink Domain.bottom))
    {op : MergeOp} (isMeet : MergeOp.IsMeet V op) (inherited : Inherited V) {left right : Node V}
    (leftOrdered : left.Ordered) (rightOrdered : right.Ordered)
    {leftShown rightShown shown : V}
    (leftSeen : Domain.leq leftShown (join left.value inherited.left))
    (rightSeen : Domain.leq rightShown (join right.value inherited.right))
    (covered : Domain.leq (meet leftShown rightShown) shown)
    (resultCovered :
      Domain.leq (join inherited.result (op.store inherited left.value right.value)) shown)
    (path : Path) :
    Domain.leq
      (meet (left.showFrom sink leftShown path) (right.showFrom sink rightShown path))
      ((merge sink op inherited left right).showFrom sink shown path) := by
  induction path generalizing inherited left right leftShown rightShown shown with
  | nil =>
      exact covered
  | cons label path inductionHypothesis =>
      have leftChildSeen :
          Domain.leq
            (join (sinkIntoChild sink Domain.bottom leftShown) (left.childOrBottom label).value)
            (join (left.childOrBottom label).value
              (op.inherit sink inherited left.value right.value).left) := by
        rw [isMeet.left_inherit]
        exact join_leq (leq_join_of_leq_right _ (sinkIntoChild_bottom_leq monotone leftSeen))
          (leq_join_left _ _)
      have rightChildSeen :
          Domain.leq
            (join (sinkIntoChild sink Domain.bottom rightShown) (right.childOrBottom label).value)
            (join (right.childOrBottom label).value
              (op.inherit sink inherited left.value right.value).right) := by
        rw [isMeet.right_inherit]
        exact join_leq (leq_join_of_leq_right _ (sinkIntoChild_bottom_leq monotone rightSeen))
          (leq_join_left _ _)
      have resultPassed :
          Domain.leq (op.inherit sink inherited left.value right.value).result
            (sinkIntoChild sink Domain.bottom shown) :=
        sinkIntoChild_leq monotone (leq_join_of_leq_right _ resultCovered)
      have mergedLeq :
          Domain.leq
            (meet (left.showFrom sink leftShown (label :: path))
              (right.showFrom sink rightShown (label :: path)))
            ((merge sink op (op.inherit sink inherited left.value right.value)
                (left.childOrBottom label) (right.childOrBottom label)).showFrom sink
              (join (sinkIntoChild sink Domain.bottom shown)
                (merge sink op (op.inherit sink inherited left.value right.value)
                  (left.childOrBottom label) (right.childOrBottom label)).value)
              path) := by
        have combined := MergeOp.combine_leq_join_store op
          (op.inherit sink inherited left.value right.value)
          (left.childOrBottom label).value (right.childOrBottom label).value
        rw [isMeet.combines] at combined
        rw [value_merge]
        refine inductionHypothesis _ (leftOrdered.childOrBottom label)
          (rightOrdered.childOrBottom label) leftChildSeen rightChildSeen
          (leq_trans (meet_mono leftChildSeen rightChildSeen) (leq_trans combined ?_)) ?_
        · exact join_mono resultPassed (leq_refl _)
        · exact join_mono resultPassed (leq_refl _)
      rcases childOrBottom_merge sink op inherited leftOrdered rightOrdered label with
        ⟨leftAbsent, rightAbsent, absent⟩ | ⟨found, outcome, isFound⟩
      · -- Nothing is stored here in any of the trees: the meet is left to what they pass on.
        simp only [showFrom, leftAbsent, rightAbsent, absent]
        apply meet_showFrom_bottom_leq monotone keepsMeets keepsBottom
        have passed :=
          leq_trans
            (meet_leq_sinkIntoChild_bottom monotone keepsMeets keepsBottom leftShown rightShown)
            (sinkIntoChild_bottom_leq monotone covered)
        refine leq_trans (meet_mono ?_ ?_) (leq_join_of_leq_left _ passed)
        · exact join_leq (leq_refl _) (bottom_leq _)
        · exact join_leq (leq_refl _) (bottom_leq _)
      · rw [showFrom.eq_2 sink shown, isFound]
        cases outcome with
        | dropped _ oneSideEmpty =>
            refine leq_of_isBottom ?_ _
            rcases oneSideEmpty with ⟨leftEmpty, nothing⟩ | ⟨rightEmpty, nothing⟩
            · refine isBottom_meet_left _ (isBottom_showFrom leftEmpty ?_ path)
              exact isBottom_of_leq leftChildSeen
                (isBottom_join_iff.mpr ⟨isBottom_value leftEmpty, nothing⟩)
            · refine isBottom_meet_right _ (isBottom_showFrom rightEmpty ?_ path)
              exact isBottom_of_leq rightChildSeen
                (isBottom_join_iff.mpr ⟨isBottom_value rightEmpty, nothing⟩)
        | keptLeft trusted _ _ => exact (isMeet.not_trusted trusted).elim
        | keptRight trusted _ _ => exact (isMeet.not_trusted trusted).elim
        | merged _ => exact mergedLeq
        | pruned empty =>
            refine leq_trans mergedLeq (showFrom_leq_of_isBottom monotone empty ?_ bottom path)
            exact join_mono (leq_refl _) (leq_of_isBottom (isBottom_value empty) _)

end Node

/-! ## Trees -/

namespace Tree

variable [LawfulDomain V] {sink : V → V}

theorem join_view_leq_merge
    (monotone : MonotoneMap sink) {op : MergeOp} (upper : op.isUpper)
    (left right : Tree V) (path : Path) :
    Domain.leq (Domain.join (left.view sink path) (right.view sink path))
      ((left.merge sink op right).view sink path) := by
  have rootCombined := MergeOp.combine_leq_join_store op .nothing left.node.value right.node.value
  have rootStored :
      Domain.leq
        (Domain.join Domain.bottom (op.store .nothing left.node.value right.node.value))
        (op.store .nothing left.node.value right.node.value) :=
    join_leq (bottom_leq _) (leq_refl _)
  have shown := leq_trans rootCombined rootStored
  have bound := Node.join_showFrom_leq_merge monotone upper .nothing left.ordered right.ordered
    (leq_trans (MergeOp.leq_combine_left upper _ _ _) shown)
    (leq_trans (MergeOp.leq_combine_right upper _ _ _) shown) rootStored path
  rw [← Node.value_merge sink] at bound
  exact bound

theorem view_join_leq
    (monotone : MonotoneMap sink) (keepsJoins : JoinMap sink)
    (keepsBottom : Domain.isBottom (sink Domain.bottom))
    (left right : Tree V) (path : Path) :
    Domain.leq ((left.join sink right).view sink path)
      (Domain.join (left.view sink path) (right.view sink path)) := by
  have storedCovered := fun below : Path =>
    Node.stored_merge_leq_join sink (Or.inl rfl) .nothing left.ordered right.ordered below
  exact Node.showFrom_leq_join_of_stored monotone keepsJoins keepsBottom
    (storedCovered []) storedCovered path

theorem view_merge_leq_meet
    (monotone : MonotoneMap sink) {op : MergeOp} (isMeet : MergeOp.IsMeet V op)
    (left right : Tree V) (path : Path) :
    Domain.leq ((left.merge sink op right).view sink path)
      (Domain.meet (left.view sink path) (right.view sink path)) := by
  have leftSeen : Domain.leq (Domain.join left.node.value Domain.bottom) left.node.value :=
    join_leq (leq_refl _) (bottom_leq _)
  have rightSeen : Domain.leq (Domain.join right.node.value Domain.bottom) right.node.value :=
    join_leq (leq_refl _) (bottom_leq _)
  have rootStored := MergeOp.store_leq_combine op .nothing left.node.value right.node.value
  rw [isMeet.combines] at rootStored
  have bound := Node.merge_showFrom_leq_meet monotone isMeet .nothing left.ordered right.ordered
    (leq_trans rootStored (leq_trans (meet_leq_left _ _) leftSeen))
    (leq_trans rootStored (leq_trans (meet_leq_right _ _) rightSeen)) leftSeen rightSeen path
  rw [← Node.value_merge sink] at bound
  exact bound

theorem meet_view_leq_merge
    (monotone : MonotoneMap sink) (keepsMeets : MeetMap sink)
    (keepsBottom : Domain.isBottom (sink Domain.bottom))
    {op : MergeOp} (isMeet : MergeOp.IsMeet V op)
    (left right : Tree V) (path : Path) :
    Domain.leq (Domain.meet (left.view sink path) (right.view sink path))
      ((left.merge sink op right).view sink path) := by
  have leftSeen : Domain.leq left.node.value (Domain.join left.node.value Domain.bottom) :=
    leq_join_left _ _
  have rightSeen : Domain.leq right.node.value (Domain.join right.node.value Domain.bottom) :=
    leq_join_left _ _
  have rootCombined := MergeOp.combine_leq_join_store op .nothing left.node.value right.node.value
  rw [isMeet.combines] at rootCombined
  have rootStored :
      Domain.leq
        (Domain.join Domain.bottom (op.store .nothing left.node.value right.node.value))
        (op.store .nothing left.node.value right.node.value) :=
    join_leq (bottom_leq _) (leq_refl _)
  have bound := Node.meet_showFrom_leq_merge monotone keepsMeets keepsBottom isMeet .nothing
    left.ordered right.ordered leftSeen rightSeen
    (leq_trans (meet_mono leftSeen rightSeen) (leq_trans rootCombined rootStored))
    rootStored path
  rw [← Node.value_merge sink] at bound
  exact bound

/-- The join of two trees shows at every path the join of what the two trees show there. -/
theorem join_pointwise [AntisymmetricDomain V]
    (keepsJoins : JoinMap sink) (keepsBottom : sink Domain.bottom = Domain.bottom)
    (left right : Tree V) (path : Path) :
    (left.join sink right).view sink path =
      Domain.join (left.view sink path) (right.view sink path) := by
  have sunkBottom : Domain.isBottom (sink Domain.bottom) := by
    rw [keepsBottom]
    exact isBottom_bottom
  exact AntisymmetricDomain.antisymm
    (view_join_leq keepsJoins.monotone keepsJoins sunkBottom left right path)
    (join_view_leq_merge keepsJoins.monotone rfl left right path)

/-- Below the only stored node, where a value was dropped because the root of the other tree covers
it. -/
theorem join_pointwise_depths :
    JoinMap (id : CollapseDepth → CollapseDepth) ∧
    id (Domain.bottom : CollapseDepth) = Domain.bottom ∧
    ((ofEdges id [([.anyIndex], CollapseDepth.level 2)]).join id (leaf (.level 1))).view id
        [.anyIndex, .anyIndex] =
      Domain.join
        ((ofEdges id [([.anyIndex], CollapseDepth.level 2)]).view id [.anyIndex, .anyIndex])
        ((leaf (CollapseDepth.level 1)).view id [.anyIndex, .anyIndex]) :=
  ⟨fun _ _ => rfl, rfl, join_pointwise (fun _ _ => rfl) rfl _ _ _⟩

end Tree

end AliasTaint
