import AliasTaint.Proofs.LatticeOn
import AliasTaint.Proofs.SortedSet
import AliasTaint.Value.Features

/-!
# Feature sets as a lattice

In a well-formed feature set every feature that always holds also may hold.  These sets are a lattice.
Without that condition the meet would not be the greatest lower bound: it is bottom as soon as some
feature would always hold that may not.
-/

namespace AliasTaint.FeatureSet

/-- Every feature that always holds also may hold. -/
def WellFormed : FeatureSet → Prop
  | .value may always => always.subset may
  | _ => True

instance : DecidablePred WellFormed
  | .bottom => isTrue trivial
  | .value may always => inferInstanceAs (Decidable (always.subset may = true))
  | .top => isTrue trivial

theorem isBottom_iff {features : FeatureSet} : features.isBottom ↔ features = .bottom :=
  decide_eq_true_iff

/-! ## The order -/

@[simp]
theorem bottom_leq (features : FeatureSet) : leq .bottom features := by
  rfl

@[simp]
theorem leq_top (features : FeatureSet) : leq features .top := by
  cases features <;> rfl

@[simp]
theorem leq_bottom_iff {features : FeatureSet} : leq features .bottom ↔ features = .bottom := by
  cases features <;> simp [leq]

@[simp]
theorem top_leq_iff {features : FeatureSet} : leq .top features ↔ features = .top := by
  cases features <;> simp [leq]

@[simp]
theorem value_leq_value_iff {may always otherMay otherAlways : SortedSet Feature} :
    leq (.value may always) (.value otherMay otherAlways) ↔
      may.subset otherMay ∧ otherAlways.subset always := by
  simp [leq]

theorem leq_refl (features : FeatureSet) : leq features features := by
  cases features with
  | bottom =>
      rfl
  | top =>
      rfl
  | value may always =>
      exact value_leq_value_iff.mpr ⟨SortedSet.subset_refl may, SortedSet.subset_refl always⟩

theorem leq_trans {first second third : FeatureSet}
    (firstCovered : leq first second) (secondCovered : leq second third) :
    leq first third := by
  cases first <;> cases second <;> cases third <;>
    simp only [bottom_leq, leq_top, leq_bottom_iff, top_leq_iff, value_leq_value_iff,
      reduceCtorEq] at firstCovered secondCovered ⊢
  exact ⟨SortedSet.subset_trans firstCovered.1 secondCovered.1,
    SortedSet.subset_trans secondCovered.2 firstCovered.2⟩

theorem leq_antisymm {left right : FeatureSet}
    (leftCovered : leq left right) (rightCovered : leq right left) :
    left = right := by
  cases left <;> cases right <;>
    simp only [leq_bottom_iff, top_leq_iff, value_leq_value_iff,
      reduceCtorEq] at leftCovered rightCovered ⊢
  rw [SortedSet.subset_antisymm leftCovered.1 rightCovered.1,
    SortedSet.subset_antisymm rightCovered.2 leftCovered.2]

/-! ## Joins -/

theorem wellFormed_join {left right : FeatureSet}
    (leftFormed : left.WellFormed) (rightFormed : right.WellFormed) :
    (join left right).WellFormed := by
  cases right with
  | bottom =>
      exact leftFormed
  | top =>
      exact trivial
  | value otherMay otherAlways =>
      cases left with
      | bottom =>
          exact rightFormed
      | top =>
          exact trivial
      | value may always =>
          have bothHold : (always.inter otherAlways).subset (may.union otherMay) := by
            rw [SortedSet.subset_iff]
            intro feature member
            have alwaysMay := SortedSet.subset_iff.mp leftFormed feature
            exact SortedSet.mem_union.mpr (Or.inl (alwaysMay (SortedSet.mem_inter.mp member).1))
          exact bothHold

theorem join_leq_iff {left right upper : FeatureSet} :
    leq (join left right) upper ↔ leq left upper ∧ leq right upper := by
  cases right with
  | bottom =>
      simp [join]
  | top =>
      simpa [join] using fun isTop => isTop ▸ leq_top left
  | value otherMay otherAlways =>
      cases left with
      | bottom =>
          simp [join]
      | top =>
          simpa [join] using fun isTop => isTop ▸ leq_top _
      | value may always =>
          cases upper with
          | bottom =>
              simp [join]
          | top =>
              simp
          | value upperMay upperAlways =>
              simp only [join, value_leq_value_iff, SortedSet.union_subset_iff,
                SortedSet.subset_inter_iff]
              exact and_and_and_comm

/-! ## Meets -/

theorem wellFormed_meet {left right : FeatureSet}
    (leftFormed : left.WellFormed) (rightFormed : right.WellFormed) :
    (meet left right).WellFormed := by
  cases right with
  | bottom =>
      cases left <;> exact trivial
  | top =>
      exact leftFormed
  | value otherMay otherAlways =>
      cases left with
      | bottom =>
          exact trivial
      | top =>
          exact rightFormed
      | value may always =>
          by_cases possible : (always.union otherAlways).subset (may.inter otherMay) <;>
            simp [meet, possible, WellFormed]

theorem leq_meet_iff {left right lower : FeatureSet} (lowerFormed : lower.WellFormed) :
    leq lower (meet left right) ↔ leq lower left ∧ leq lower right := by
  cases right with
  | bottom =>
      have nothing : meet left .bottom = .bottom := by
        cases left <;> rfl
      simpa [nothing] using fun isBottom => isBottom ▸ bottom_leq left
  | top =>
      simp [meet]
  | value otherMay otherAlways =>
      cases left with
      | bottom =>
          simpa [meet] using fun isBottom => isBottom ▸ bottom_leq _
      | top =>
          simp [meet]
      | value may always =>
          cases lower with
          | bottom =>
              simp
          | top =>
              by_cases possible : (always.union otherAlways).subset (may.inter otherMay) <;>
                simp [meet, possible]
          | value lowerMay lowerAlways =>
              have parts :
                  lowerMay.subset (may.inter otherMay) ∧
                    (always.union otherAlways).subset lowerAlways ↔
                  (lowerMay.subset may ∧ always.subset lowerAlways) ∧
                    lowerMay.subset otherMay ∧ otherAlways.subset lowerAlways := by
                rw [SortedSet.subset_inter_iff, SortedSet.union_subset_iff]
                exact and_and_and_comm
              rw [value_leq_value_iff, value_leq_value_iff, ← parts]
              by_cases possible : (always.union otherAlways).subset (may.inter otherMay)
              · simp [meet, possible]
              · -- A lower bound puts its own sets between the two that are not nested.
                simp only [meet, possible, Bool.false_eq_true, if_false, leq_bottom_iff,
                  reduceCtorEq, false_iff]
                rintro ⟨maySubset, alwaysSubset⟩
                exact possible (SortedSet.subset_trans alwaysSubset
                  (SortedSet.subset_trans lowerFormed maySubset))

/-- The order and the joins do not need well-formed sets. -/
instance : SemilatticeOn fun _ : FeatureSet => True where
  bottom := trivial
  join _ _ := trivial
  bottom_leq _ := bottom_leq _
  isBottom_iff _ := isBottom_iff
  leq_refl _ := leq_refl _
  leq_trans _ _ _ := leq_trans
  leq_antisymm _ _ := leq_antisymm
  join_leq_iff _ _ _ := join_leq_iff

instance : LatticeOn WellFormed where
  bottom := trivial
  join := wellFormed_join
  meet := wellFormed_meet
  widen_eq _ _ := rfl
  narrow_eq _ _ := rfl
  bottom_leq _ := bottom_leq _
  isBottom_iff _ := isBottom_iff
  leq_refl _ := leq_refl _
  leq_trans _ _ _ := leq_trans
  leq_antisymm _ _ := leq_antisymm
  join_leq_iff _ _ _ := join_leq_iff
  leq_meet_iff _ _ lowerFormed := leq_meet_iff lowerFormed

end AliasTaint.FeatureSet
