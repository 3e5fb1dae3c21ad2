import AliasTaint.Proofs.LatticeOn
import AliasTaint.Proofs.SortedSet
import AliasTaint.Value.Positions

/-!
# Position sets as a lattice

A well-formed position set lists no more positions than the limit of the heuristics.  These sets are a
lattice: where the union of two sets is beyond the limit, the least upper bound is the widened set,
because no listed set can cover both.
-/

namespace AliasTaint.PositionSet

variable {heuristics : Heuristics}

/-- The listed positions are within the limit. -/
def WellFormed : PositionSet heuristics → Prop
  | .listed positions => positions.size ≤ heuristics.maxPositions.toNat
  | _ => True

instance : DecidablePred (@WellFormed heuristics)
  | .bottom => isTrue trivial
  | .listed positions =>
      inferInstanceAs (Decidable (positions.size ≤ heuristics.maxPositions.toNat))
  | .widened => isTrue trivial

theorem isBottom_iff {positions : PositionSet heuristics} : positions.isBottom ↔ positions = .bottom :=
  decide_eq_true_iff

/-! ## The order -/

@[simp]
theorem bottom_leq (positions : PositionSet heuristics) : leq .bottom positions := by
  rfl

@[simp]
theorem leq_widened (positions : PositionSet heuristics) : leq positions .widened := by
  cases positions <;> rfl

@[simp]
theorem leq_bottom_iff {positions : PositionSet heuristics} :
    leq positions .bottom ↔ positions = .bottom := by
  cases positions <;> simp [leq]

@[simp]
theorem widened_leq_iff {positions : PositionSet heuristics} :
    leq .widened positions ↔ positions = .widened := by
  cases positions <;> simp [leq]

@[simp]
theorem listed_leq_listed {positions others : SortedSet Position} :
    leq (.listed positions : PositionSet heuristics) (.listed others) =
      positions.subset others := by
  rfl

theorem leq_refl (positions : PositionSet heuristics) : leq positions positions := by
  cases positions with
  | bottom =>
      rfl
  | widened =>
      rfl
  | listed positions =>
      exact SortedSet.subset_refl positions

theorem leq_trans {first second third : PositionSet heuristics}
    (firstCovered : leq first second) (secondCovered : leq second third) :
    leq first third := by
  cases first <;> cases second <;> cases third <;>
    simp only [bottom_leq, leq_widened, leq_bottom_iff, widened_leq_iff, listed_leq_listed,
      reduceCtorEq] at firstCovered secondCovered ⊢
  exact SortedSet.subset_trans firstCovered secondCovered

theorem leq_antisymm {left right : PositionSet heuristics}
    (leftCovered : leq left right) (rightCovered : leq right left) :
    left = right := by
  cases left <;> cases right <;>
    simp only [leq_bottom_iff, widened_leq_iff, listed_leq_listed,
      reduceCtorEq] at leftCovered rightCovered ⊢
  rw [SortedSet.subset_antisymm leftCovered rightCovered]

/-! ## Joins -/

theorem wellFormed_limited (positions : SortedSet Position) :
    (limited positions : PositionSet heuristics).WellFormed := by
  unfold limited
  split
  · exact trivial
  · rename_i withinLimit
    exact Nat.le_of_not_lt withinLimit

/-- Positions beyond the limit are covered by no listed set. -/
theorem limited_leq_iff {positions : SortedSet Position} {upper : PositionSet heuristics}
    (upperFormed : upper.WellFormed) :
    leq (limited positions) upper ↔ leq (.listed positions) upper := by
  unfold limited
  split
  · rename_i beyond
    rw [widened_leq_iff]
    constructor
    · intro isWidened
      rw [isWidened]
      exact leq_widened _
    · intro covered
      cases upper with
      | bottom =>
          exact nomatch covered
      | widened =>
          rfl
      | listed others =>
          have smaller : positions.size ≤ others.size := SortedSet.size_le_of_subset covered
          have withinLimit : others.size ≤ heuristics.maxPositions.toNat := upperFormed
          omega
  · exact Iff.rfl

theorem wellFormed_join {left right : PositionSet heuristics}
    (leftFormed : left.WellFormed) (rightFormed : right.WellFormed) :
    (join left right).WellFormed := by
  cases right with
  | bottom =>
      exact leftFormed
  | widened =>
      exact trivial
  | listed others =>
      cases left with
      | bottom =>
          exact rightFormed
      | widened =>
          exact trivial
      | listed positions =>
          exact wellFormed_limited _

theorem join_leq_iff {left right upper : PositionSet heuristics} (upperFormed : upper.WellFormed) :
    leq (join left right) upper ↔ leq left upper ∧ leq right upper := by
  cases right with
  | bottom =>
      simp [join]
  | widened =>
      simpa [join] using fun isWidened => isWidened ▸ leq_widened left
  | listed others =>
      cases left with
      | bottom =>
          simp [join]
      | widened =>
          simpa [join] using fun isWidened => isWidened ▸ leq_widened _
      | listed positions =>
          rw [join, limited_leq_iff upperFormed]
          cases upper with
          | bottom =>
              simp
          | widened =>
              simp
          | listed covering =>
              exact SortedSet.union_subset_iff

/-! ## Meets -/

theorem wellFormed_meet {left right : PositionSet heuristics}
    (leftFormed : left.WellFormed) (rightFormed : right.WellFormed) :
    (meet left right).WellFormed := by
  cases right with
  | bottom =>
      cases left <;> exact trivial
  | widened =>
      exact leftFormed
  | listed others =>
      cases left with
      | bottom =>
          exact trivial
      | widened =>
          exact rightFormed
      | listed positions =>
          have fewer : (positions.inter others).size ≤ positions.size :=
            List.length_filter_le _ _
          exact Nat.le_trans fewer leftFormed

theorem leq_meet_iff {left right lower : PositionSet heuristics} :
    leq lower (meet left right) ↔ leq lower left ∧ leq lower right := by
  cases right with
  | bottom =>
      have nothing : meet left .bottom = .bottom := by
        cases left <;> rfl
      simpa [nothing] using fun isBottom => isBottom ▸ bottom_leq left
  | widened =>
      simp [meet]
  | listed others =>
      cases left with
      | bottom =>
          simpa [meet] using fun isBottom => isBottom ▸ bottom_leq _
      | widened =>
          simp [meet]
      | listed positions =>
          cases lower with
          | bottom =>
              simp
          | widened =>
              simp [meet]
          | listed smaller =>
              exact SortedSet.subset_inter_iff

instance : LatticeOn (@WellFormed heuristics) where
  bottom := trivial
  join := wellFormed_join
  meet := wellFormed_meet
  widen_eq _ _ := rfl
  narrow_eq _ _ := rfl
  bottom_leq _ := bottom_leq _
  isBottom_iff _ := isBottom_iff
  leq_refl _ := leq_refl _
  leq_trans _ _ _ := leq_trans
  leq_antisymm _ _ := leq_antisymm
  join_leq_iff _ _ upperFormed := join_leq_iff upperFormed
  leq_meet_iff _ _ _ := leq_meet_iff

end AliasTaint.PositionSet
