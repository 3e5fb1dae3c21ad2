import AliasTaint.Proofs.Lattice
import AliasTaint.Value.CollapseDepth

/-!
# Collapse depths as a lattice

All collapse depths are well-formed: the depths form a chain in which the smaller number is greater,
with bottom below all of them.
-/

namespace AliasTaint.CollapseDepth

theorem isBottom_iff {depth : CollapseDepth} : Domain.isBottom depth ↔ depth = .bottom :=
  decide_eq_true_iff

@[simp]
theorem level_leq_level_iff {left right : UInt32} :
    leq (.level left) (.level right) ↔ right.toNat ≤ left.toNat := by
  simp [leq, UInt32.le_iff_toNat_le]

theorem leq_refl (depth : CollapseDepth) : leq depth depth := by
  cases depth with
  | bottom =>
      rfl
  | level number =>
      exact level_leq_level_iff.mpr (Nat.le_refl _)

theorem leq_trans {first second third : CollapseDepth}
    (firstCovered : leq first second) (secondCovered : leq second third) :
    leq first third := by
  cases first with
  | bottom =>
      rfl
  | level firstNumber =>
      cases second with
      | bottom =>
          exact nomatch firstCovered
      | level secondNumber =>
          cases third with
          | bottom =>
              exact nomatch secondCovered
          | level thirdNumber =>
              rw [level_leq_level_iff] at firstCovered secondCovered ⊢
              omega

theorem leq_antisymm {left right : CollapseDepth}
    (leftCovered : leq left right) (rightCovered : leq right left) :
    left = right := by
  cases left with
  | bottom =>
      cases right with
      | bottom =>
          rfl
      | level number =>
          exact nomatch rightCovered
  | level leftNumber =>
      cases right with
      | bottom =>
          exact nomatch leftCovered
      | level rightNumber =>
          rw [level_leq_level_iff] at leftCovered rightCovered
          have sameNumber : leftNumber = rightNumber :=
            UInt32.toNat_inj.mp (Nat.le_antisymm rightCovered leftCovered)
          rw [sameNumber]

/-- The join is one of the two depths, and covers the other one. -/
theorem join_cases (left right : CollapseDepth) :
    (join left right = left ∧ leq right left) ∨ (join left right = right ∧ leq left right) := by
  cases left with
  | bottom =>
      exact Or.inr ⟨rfl, rfl⟩
  | level leftNumber =>
      cases right with
      | bottom =>
          exact Or.inl ⟨rfl, rfl⟩
      | level rightNumber =>
          by_cases smaller : leftNumber ≤ rightNumber
          · exact Or.inl ⟨by simp [join, smaller], by simpa [leq] using smaller⟩
          · refine Or.inr ⟨by simp [join, smaller], level_leq_level_iff.mpr ?_⟩
            rw [UInt32.le_iff_toNat_le] at smaller
            omega

theorem meet_cases (left right : CollapseDepth) :
    (meet left right = left ∧ leq left right) ∨ (meet left right = right ∧ leq right left) := by
  cases left with
  | bottom =>
      exact Or.inl ⟨rfl, rfl⟩
  | level leftNumber =>
      cases right with
      | bottom =>
          exact Or.inr ⟨rfl, rfl⟩
      | level rightNumber =>
          by_cases smaller : leftNumber ≤ rightNumber
          · exact Or.inr ⟨by simp [meet, smaller], by simpa [leq] using smaller⟩
          · refine Or.inl ⟨by simp [meet, smaller], level_leq_level_iff.mpr ?_⟩
            rw [UInt32.le_iff_toNat_le] at smaller
            omega

theorem leq_join_left (left right : CollapseDepth) : leq left (join left right) := by
  rcases join_cases left right with ⟨isLeft, _⟩ | ⟨isRight, covered⟩
  · rw [isLeft]
    exact leq_refl left
  · rw [isRight]
    exact covered

theorem leq_join_right (left right : CollapseDepth) : leq right (join left right) := by
  rcases join_cases left right with ⟨isLeft, covered⟩ | ⟨isRight, _⟩
  · rw [isLeft]
    exact covered
  · rw [isRight]
    exact leq_refl right

theorem join_leq {left right upper : CollapseDepth}
    (leftCovered : leq left upper) (rightCovered : leq right upper) :
    leq (join left right) upper := by
  rcases join_cases left right with ⟨isLeft, _⟩ | ⟨isRight, _⟩
  · rw [isLeft]
    exact leftCovered
  · rw [isRight]
    exact rightCovered

theorem meet_leq_left (left right : CollapseDepth) : leq (meet left right) left := by
  rcases meet_cases left right with ⟨isLeft, _⟩ | ⟨isRight, covered⟩
  · rw [isLeft]
    exact leq_refl left
  · rw [isRight]
    exact covered

theorem meet_leq_right (left right : CollapseDepth) : leq (meet left right) right := by
  rcases meet_cases left right with ⟨isLeft, covered⟩ | ⟨isRight, _⟩
  · rw [isLeft]
    exact covered
  · rw [isRight]
    exact leq_refl right

theorem leq_meet {left right lower : CollapseDepth}
    (leftCovers : leq lower left) (rightCovers : leq lower right) :
    leq lower (meet left right) := by
  rcases meet_cases left right with ⟨isLeft, _⟩ | ⟨isRight, _⟩
  · rw [isLeft]
    exact leftCovers
  · rw [isRight]
    exact rightCovers

instance : LawfulDomain CollapseDepth where
  leq_refl := leq_refl
  leq_trans := leq_trans
  bottom_leq _ := rfl
  isBottom_iff {value} := by
    cases value with
    | bottom =>
        exact iff_of_true rfl rfl
    | level number =>
        exact iff_of_false nofun nofun
  leq_join_left := leq_join_left
  leq_join_right := leq_join_right
  join_leq := join_leq
  meet_leq_left := meet_leq_left
  meet_leq_right := meet_leq_right
  leq_meet := leq_meet
  leq_widen_left := leq_join_left
  leq_widen_right := leq_join_right

instance : AntisymmetricDomain CollapseDepth where
  antisymm := leq_antisymm

instance : LawfulTop CollapseDepth where
  leq_top depth := by
    cases depth with
    | bottom =>
        rfl
    | level number =>
        exact level_leq_level_iff.mpr (Nat.zero_le _)
  top_ne_bottom := nofun

end AliasTaint.CollapseDepth
