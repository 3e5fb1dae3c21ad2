import AliasTaint.Proofs.Value.WellFormed

/-!
# Stamping taint

Taint that crosses an alias edge picks up the features and positions of the edge.  To stamp taint in
this way keeps joins, and it never adds or removes a kind.  Nothing is asked of the stamped features
for that, so it holds of taint whose features are of any kind that the stamped ones do not lead out
of.

Stamping more gives more.  This needs features that may hold wherever they always hold: a set that
always has a feature which it may not have counts as empty, and is not stamped at all.
-/

namespace AliasTaint

open Domain

/-! ## Features -/

namespace FeatureSet

variable {left right stamped features : FeatureSet}

@[simp]
theorem add_bottom (features : FeatureSet) : add features .bottom = features := by
  cases features <;> rfl

@[simp]
theorem add_top (features : FeatureSet) : add features .top = .top := by
  cases features <;> rfl

theorem add_ne_bottom (filled : features ≠ .bottom) (stamped : FeatureSet) :
    add features stamped ≠ .bottom := by
  cases features <;> cases stamped <;> simp_all [add]

/-- Stamping features does not lead out of a kind of feature sets. -/
def Admits (GoodFeatures : FeatureSet → Prop) (stamped : FeatureSet) : Prop :=
  ∀ features, GoodFeatures features → GoodFeatures (features.add stamped)

theorem admits_true (stamped : FeatureSet) : Admits (fun _ => True) stamped :=
  fun _ _ => trivial

theorem admits_of_wellFormed (stampedFormed : stamped.WellFormed) :
    Admits WellFormed stamped := by
  intro features formed
  cases stamped with
  | bottom =>
      rwa [add_bottom]
  | top =>
      rw [add_top]
      exact trivial
  | value otherMay otherAlways =>
      cases features with
      | bottom =>
          exact stampedFormed
      | top =>
          exact trivial
      | value may always =>
          have mayHold : (always.union otherAlways).subset (may.union otherMay) := by
            simp only [SortedSet.subset_iff, SortedSet.mem_union]
            intro feature
            exact Or.imp (SortedSet.subset_iff.mp formed feature)
              (SortedSet.subset_iff.mp stampedFormed feature)
          exact mayHold

/-- What always holds on both sides, or is stamped, always holds on both sides once it is stamped. -/
theorem add_join (leftFilled : left ≠ .bottom) (rightFilled : right ≠ .bottom)
    (stamped : FeatureSet) :
    add (join left right) stamped = join (add left stamped) (add right stamped) := by
  cases stamped with
  | bottom =>
      simp only [add_bottom]
  | top =>
      simp only [add_top]
      rfl
  | value stampedMay stampedAlways =>
      cases left with
      | bottom =>
          exact absurd rfl leftFilled
      | top =>
          cases right with
          | bottom =>
              exact absurd rfl rightFilled
          | top =>
              rfl
          | value may always =>
              rfl
      | value may always =>
          cases right with
          | bottom =>
              exact absurd rfl rightFilled
          | top =>
              rfl
          | value otherMay otherAlways =>
              have sameMay : (may.union otherMay).union stampedMay =
                  (may.union stampedMay).union (otherMay.union stampedMay) := by
                apply SortedSet.ext_mem
                simp only [SortedSet.mem_union]
                exact fun _ => or_or_distrib_right
              have sameAlways : (always.inter otherAlways).union stampedAlways =
                  (always.union stampedAlways).inter (otherAlways.union stampedAlways) := by
                apply SortedSet.ext_mem
                simp only [SortedSet.mem_union, SortedSet.mem_inter]
                exact fun _ => and_or_right
              simp only [add, join, sameMay, sameAlways]

theorem add_leq_add {smaller greater : FeatureSet} (filled : features ≠ .bottom)
    (smallerFilled : smaller ≠ .bottom) (covered : leq smaller greater) :
    leq (add features smaller) (add features greater) := by
  cases greater with
  | bottom =>
      exact absurd (leq_bottom_iff.mp covered) smallerFilled
  | top =>
      rw [add_top]
      exact leq_top _
  | value greaterMay greaterAlways =>
      cases smaller with
      | bottom =>
          exact absurd rfl smallerFilled
      | top =>
          exact nomatch top_leq_iff.mp covered
      | value smallerMay smallerAlways =>
          obtain ⟨mayCovered, alwaysCovered⟩ := value_leq_value_iff.mp covered
          cases features with
          | bottom =>
              exact absurd rfl filled
          | top =>
              rfl
          | value may always =>
              refine value_leq_value_iff.mpr ⟨?_, ?_⟩
              · simp only [SortedSet.subset_iff, SortedSet.mem_union]
                exact fun feature => Or.imp_right (SortedSet.subset_iff.mp mayCovered feature)
              · simp only [SortedSet.subset_iff, SortedSet.mem_union]
                exact fun feature => Or.imp_right (SortedSet.subset_iff.mp alwaysCovered feature)

/-- A stamp that only says what may hold gives more. -/
theorem leq_add_ofMay (features : FeatureSet) (labels : List Feature) :
    leq features (add features (.ofMay labels)) := by
  cases features with
  | bottom =>
      rfl
  | top =>
      rfl
  | value may always =>
      refine value_leq_value_iff.mpr ⟨?_, ?_⟩
      · simp only [SortedSet.subset_iff, SortedSet.mem_union]
        exact fun _ => Or.inl
      · simp only [SortedSet.subset_iff, SortedSet.mem_union]
        exact fun _ isMember => isMember.resolve_right nofun

theorem add_eq_self (stampedFormed : stamped.WellFormed) (nothing : stamped.isEmpty)
    (filled : features ≠ .bottom) : add features stamped = features := by
  cases stamped with
  | bottom =>
      rw [add_bottom]
  | top =>
      exact nomatch nothing
  | value stampedMay stampedAlways =>
      have noMembers : stampedMay.toList = [] := List.isEmpty_iff.mp nothing
      have noMay : ∀ feature, feature ∉ stampedMay := by
        intro feature isMember
        have isListed : feature ∈ stampedMay.toList := isMember
        rw [noMembers] at isListed
        exact nomatch isListed
      have noAlways : ∀ feature, feature ∉ stampedAlways := fun feature isMember =>
        noMay feature (SortedSet.subset_iff.mp stampedFormed feature isMember)
      cases features with
      | bottom =>
          exact absurd rfl filled
      | top =>
          rfl
      | value may always =>
          have sameMay : may.union stampedMay = may := by
            apply SortedSet.ext_mem
            simp [noMay]
          have sameAlways : always.union stampedAlways = always := by
            apply SortedSet.ext_mem
            simp [noAlways]
          rw [add, sameMay, sameAlways]

theorem add_right_comm (features first second : FeatureSet) :
    add (add features first) second = add (add features second) first := by
  have unions (left middle right : SortedSet Feature) :
      (left.union middle).union right = (left.union right).union middle := by
    apply SortedSet.ext_mem
    simp only [SortedSet.mem_union]
    exact fun _ => or_right_comm
  have swapped (left right : SortedSet Feature) : left.union right = right.union left := by
    apply SortedSet.ext_mem
    simp only [SortedSet.mem_union]
    exact fun _ => or_comm
  cases first with
  | bottom =>
      simp only [add_bottom]
  | top =>
      cases features <;> cases second <;> rfl
  | value firstMay firstAlways =>
      cases second with
      | bottom =>
          simp only [add_bottom]
      | top =>
          cases features <;> rfl
      | value secondMay secondAlways =>
          cases features with
          | bottom =>
              simp only [add, swapped firstMay, swapped firstAlways]
          | top =>
              rfl
          | value may always =>
              simp only [add, unions may firstMay, unions always firstAlways]

theorem add_twice (features stamped : FeatureSet) :
    add (add features stamped) stamped = add features stamped := by
  have unions (left right : SortedSet Feature) :
      (left.union right).union right = left.union right := by
    apply SortedSet.ext_mem
    simp only [SortedSet.mem_union]
    exact fun _ => or_assoc.trans (or_congr_right or_self_iff)
  have same (set : SortedSet Feature) : set.union set = set := by
    apply SortedSet.ext_mem
    simp only [SortedSet.mem_union]
    exact fun _ => or_self_iff
  cases stamped with
  | bottom =>
      simp only [add_bottom]
  | top =>
      cases features <;> rfl
  | value stampedMay stampedAlways =>
      cases features with
      | bottom =>
          simp only [add, same]
      | top =>
          rfl
      | value may always =>
          simp only [add, unions]

end FeatureSet

/-! ## Positions -/

namespace PositionSet

variable {heuristics : Heuristics} {left right positions stamped : PositionSet heuristics}

theorem addAll_eq_join (filled : positions ≠ .bottom) (stamped : PositionSet heuristics) :
    addAll positions stamped = join positions stamped := by
  cases positions with
  | bottom =>
      exact absurd rfl filled
  | widened =>
      cases stamped <;> rfl
  | listed positions =>
      cases stamped <;> rfl

theorem join_ne_bottom (filled : left ≠ .bottom) (right : PositionSet heuristics) :
    join left right ≠ .bottom := by
  cases left with
  | bottom =>
      exact absurd rfl filled
  | widened =>
      cases right <;> simp [join]
  | listed positions =>
      cases right with
      | bottom =>
          simp [join]
      | widened =>
          simp [join]
      | listed others =>
          rw [join, limited]
          split <;> simp

theorem wellFormed_addAll (formed : positions.WellFormed) (stamped : PositionSet heuristics) :
    (addAll positions stamped).WellFormed := by
  cases positions with
  | bottom =>
      cases stamped <;> exact trivial
  | widened =>
      cases stamped <;> exact trivial
  | listed positions =>
      cases stamped with
      | bottom =>
          exact formed
      | widened =>
          exact trivial
      | listed others =>
          exact wellFormed_limited _

theorem addAll_join (leftFormed : left.WellFormed) (rightFormed : right.WellFormed)
    (leftFilled : left ≠ .bottom) (rightFilled : right ≠ .bottom)
    (stamped : PositionSet heuristics) :
    addAll (join left right) stamped = join (addAll left stamped) (addAll right stamped) := by
  have goodLeft := wellFormed_addAll leftFormed stamped
  have goodRight := wellFormed_addAll rightFormed stamped
  refine SemilatticeOn.eq_of_leq_iff (wellFormed_addAll (wellFormed_join leftFormed rightFormed) _)
    (wellFormed_join goodLeft goodRight) ?_
  intro upper upperFormed
  rw [addAll_eq_join (join_ne_bottom leftFilled right), addAll_eq_join leftFilled,
    addAll_eq_join rightFilled]
  refine (join_leq_iff upperFormed).trans ?_
  refine Iff.trans ?_ (join_leq_iff upperFormed).symm
  rw [join_leq_iff upperFormed, join_leq_iff upperFormed, join_leq_iff upperFormed]
  exact and_and_right

theorem addAll_leq_addAll {smaller greater : PositionSet heuristics}
    (formed : positions.WellFormed) (filled : positions ≠ .bottom)
    (covered : leq smaller greater) :
    leq (addAll positions smaller) (addAll positions greater) := by
  have upperFormed := wellFormed_addAll formed greater
  rw [addAll_eq_join filled] at upperFormed
  rw [addAll_eq_join filled, addAll_eq_join filled]
  obtain ⟨covers, coversGreater⟩ := (join_leq_iff upperFormed).mp (leq_refl _)
  exact (join_leq_iff upperFormed).mpr ⟨covers, leq_trans covered coversGreater⟩

theorem addAll_eq_self (formed : positions.WellFormed) (nothing : stamped.isEmpty) :
    addAll positions stamped = positions := by
  cases stamped with
  | bottom =>
      exact nomatch nothing
  | widened =>
      exact nomatch nothing
  | listed others =>
      cases positions with
      | bottom =>
          rfl
      | widened =>
          rfl
      | listed positions =>
          have same : positions.union others = positions := by
            unfold SortedSet.union
            rw [List.isEmpty_iff.mp nothing]
            rfl
          have withinLimit : ¬ heuristics.maxPositions.toNat < positions.size :=
            Nat.not_lt_of_le formed
          rw [addAll, same, limited, if_neg withinLimit]

end PositionSet

/-! ## Frames -/

namespace TaintFrame

variable {heuristics : Heuristics} {GoodFeatures : FeatureSet → Prop}

/-- Some part of a frame is bottom. -/
def lacks (pair : FeatureSet × PositionSet heuristics) : Bool :=
  pair.1.isBottom || pair.2.isBottom

theorem full_iff {pair : FeatureSet × PositionSet heuristics} :
    lacks pair = false ↔ pair.1 ≠ .bottom ∧ pair.2 ≠ .bottom := by
  simp only [lacks, Bool.eq_false_iff, ne_eq, Bool.or_eq_true, not_or, FeatureSet.isBottom_iff,
    PositionSet.isBottom_iff]

theorem isBottom_of_features {frame : TaintFrame heuristics}
    (filled : frame.features ≠ .bottom) : frame.isBottom = false := by
  simp [isBottom, FeatureSet.isBottom, filled]

theorem changesParts_id :
    Smash.ChangesParts (GoodPair GoodFeatures (@PositionSet.WellFormed heuristics)) parts lacks
      id id where
  bottom := rfl
  parts_change _ := rfl
  full_change good full := ⟨good, full⟩

theorem changesParts_addFeatures {stamped : FeatureSet}
    (admits : FeatureSet.Admits GoodFeatures stamped) :
    Smash.ChangesParts (GoodPair GoodFeatures (@PositionSet.WellFormed heuristics)) parts lacks
      (fun frame => frame.addFeatures stamped) (fun pair => (pair.1.add stamped, pair.2)) where
  bottom := rfl
  parts_change {frame} full := by
    have filled : frame.isBottom = false := isBottom_of_features (full_iff.mp full).1
    simp only [addFeatures, filled, Bool.false_eq_true, if_false]
    rfl
  full_change good full := by
    obtain ⟨featuresFilled, positionsFilled⟩ := full_iff.mp full
    exact ⟨⟨admits _ good.1, good.2⟩,
      full_iff.mpr ⟨FeatureSet.add_ne_bottom featuresFilled stamped, positionsFilled⟩⟩

theorem changesParts_addPositions (stamped : PositionSet heuristics) :
    Smash.ChangesParts (GoodPair GoodFeatures PositionSet.WellFormed) parts lacks
      (fun frame => frame.addPositions stamped) (fun pair => (pair.1, pair.2.addAll stamped)) where
  bottom := by
    cases stamped <;> rfl
  parts_change _ := rfl
  full_change good full := by
    obtain ⟨featuresFilled, positionsFilled⟩ := full_iff.mp full
    refine ⟨⟨good.1, PositionSet.wellFormed_addAll good.2 stamped⟩,
      full_iff.mpr ⟨featuresFilled, ?_⟩⟩
    rw [PositionSet.addAll_eq_join positionsFilled]
    exact PositionSet.join_ne_bottom positionsFilled stamped

theorem addFeatures_eq_self {frame : TaintFrame heuristics} (whole : frame.Whole GoodFeatures)
    {stamped : FeatureSet} (formed : stamped.WellFormed) (nothing : stamped.isEmpty) :
    frame.addFeatures stamped = frame := by
  rcases whole with rfl | ⟨_, _, featuresFilled, _⟩
  · rfl
  · unfold addFeatures
    split
    · rfl
    · rw [FeatureSet.add_eq_self formed nothing featuresFilled]

theorem addPositions_eq_self {frame : TaintFrame heuristics} (whole : frame.Whole GoodFeatures)
    {stamped : PositionSet heuristics} (nothing : stamped.isEmpty) :
    frame.addPositions stamped = frame := by
  have formed : frame.positions.WellFormed := by
    rcases whole with rfl | ⟨_, formed, _, _⟩
    · exact trivial
    · exact formed
  rw [addPositions, PositionSet.addAll_eq_self formed nothing]

theorem addFeatures_of_filled {frame : TaintFrame heuristics}
    (filled : frame.features ≠ .bottom) (stamped : FeatureSet) :
    frame.addFeatures stamped = { frame with features := frame.features.add stamped } := by
  simp [addFeatures, isBottom_of_features filled]

theorem addFeatures_right_comm {frame : TaintFrame heuristics}
    (whole : frame.Whole GoodFeatures) (first second : FeatureSet) :
    (frame.addFeatures first).addFeatures second =
      (frame.addFeatures second).addFeatures first := by
  rcases whole with rfl | ⟨_, _, filled, _⟩
  · rfl
  · rw [addFeatures_of_filled filled, addFeatures_of_filled filled,
      addFeatures_of_filled (FeatureSet.add_ne_bottom filled first),
      addFeatures_of_filled (FeatureSet.add_ne_bottom filled second),
      FeatureSet.add_right_comm]

theorem addFeatures_twice {frame : TaintFrame heuristics}
    (whole : frame.Whole GoodFeatures) (stamped : FeatureSet) :
    (frame.addFeatures stamped).addFeatures stamped = frame.addFeatures stamped := by
  rcases whole with rfl | ⟨_, _, filled, _⟩
  · rfl
  · rw [addFeatures_of_filled filled,
      addFeatures_of_filled (FeatureSet.add_ne_bottom filled stamped), FeatureSet.add_twice]

theorem addPositions_addFeatures {frame : TaintFrame heuristics}
    (whole : frame.Whole GoodFeatures) (positions : PositionSet heuristics) (features : FeatureSet) :
    (frame.addFeatures features).addPositions positions =
      (frame.addPositions positions).addFeatures features := by
  rcases whole with rfl | ⟨_, _, filled, _⟩
  · cases positions <;> rfl
  · have stillFilled : (frame.addPositions positions).features ≠ .bottom := filled
    rw [addFeatures_of_filled filled, addFeatures_of_filled stillFilled]
    rfl

variable [SemilatticeOn GoodFeatures]

theorem joinMapOn_addFeatures {stamped : FeatureSet}
    (admits : FeatureSet.Admits GoodFeatures stamped) :
    JoinMapOn (@Whole heuristics GoodFeatures) (Whole GoodFeatures)
      fun frame => frame.addFeatures stamped := by
  refine (smash_whole GoodFeatures).joinMapOn (changesParts_addFeatures admits) ?_
  intro left right _ leftFull _ rightFull
  have sameFeatures :=
    FeatureSet.add_join (full_iff.mp leftFull).1 (full_iff.mp rightFull).1 stamped
  exact Prod.ext sameFeatures rfl

theorem joinMapOn_addPositions (stamped : PositionSet heuristics) :
    JoinMapOn (@Whole heuristics GoodFeatures) (Whole GoodFeatures)
      fun frame => frame.addPositions stamped := by
  refine (smash_whole GoodFeatures).joinMapOn (changesParts_addPositions stamped) ?_
  intro left right goodLeft leftFull goodRight rightFull
  have samePositions := PositionSet.addAll_join goodLeft.2 goodRight.2
    (full_iff.mp leftFull).2 (full_iff.mp rightFull).2 stamped
  exact Prod.ext rfl samePositions

theorem addFeatures_leq_addFeatures {smaller greater : FeatureSet}
    (admitsSmaller : FeatureSet.Admits GoodFeatures smaller)
    (admitsGreater : FeatureSet.Admits GoodFeatures greater)
    (filled : smaller ≠ .bottom) (covered : smaller.leq greater)
    {frame : TaintFrame heuristics} (whole : frame.Whole GoodFeatures) :
    Domain.leq (frame.addFeatures smaller) (frame.addFeatures greater) := by
  refine (smash_whole GoodFeatures).change_leq_change (changesParts_addFeatures admitsSmaller)
    (changesParts_addFeatures admitsGreater) ?_ whole
  intro pair _ full
  exact pair_leq_iff.mpr ⟨FeatureSet.add_leq_add (full_iff.mp full).1 filled covered,
    PositionSet.leq_refl pair.2⟩

theorem addPositions_leq_addPositions {smaller greater : PositionSet heuristics}
    (covered : smaller.leq greater)
    {frame : TaintFrame heuristics} (whole : frame.Whole GoodFeatures) :
    Domain.leq (frame.addPositions smaller) (frame.addPositions greater) := by
  refine (smash_whole GoodFeatures).change_leq_change (changesParts_addPositions smaller)
    (changesParts_addPositions greater) ?_ whole
  intro pair good full
  exact pair_leq_iff.mpr ⟨SemilatticeOn.leq_refl good.1,
    PositionSet.addAll_leq_addAll good.2 (full_iff.mp full).2 covered⟩

theorem leq_addFeatures_ofMay (labels : List Feature)
    (admits : FeatureSet.Admits GoodFeatures (.ofMay labels))
    {frame : TaintFrame heuristics} (whole : frame.Whole GoodFeatures) :
    Domain.leq frame (frame.addFeatures (.ofMay labels)) := by
  refine (smash_whole GoodFeatures).change_leq_change changesParts_id
    (changesParts_addFeatures admits) ?_ whole
  intro pair _ _
  exact pair_leq_iff.mpr ⟨FeatureSet.leq_add_ofMay pair.1 labels, PositionSet.leq_refl pair.2⟩

end TaintFrame

/-! ## Taint -/

namespace Taint

variable {heuristics : Heuristics} {GoodFeatures : FeatureSet → Prop} [SemilatticeOn GoodFeatures]

/-- The taint has no frame of a kind. -/
def Lacks (kind : Kind) (taint : Taint heuristics) : Prop :=
  taint.frames.Lacks kind

omit [SemilatticeOn GoodFeatures] in
theorem ideal_lacks (kind : Kind) : Ideal (@Whole heuristics GoodFeatures) (Lacks kind) where
  bottom := rfl
  join_iff leftWhole rightWhole := (Partition.ideal_lacks kind).join_iff leftWhole rightWhole

theorem joinMapOn_frames {change : TaintFrame heuristics → TaintFrame heuristics}
    (keeps : JoinMapOn (TaintFrame.Whole GoodFeatures) (TaintFrame.Whole GoodFeatures) change) :
    JoinMapOn (@Whole heuristics GoodFeatures) (Whole GoodFeatures)
      fun taint => ⟨taint.frames.transform change⟩ where
  good whole := Partition.wellFormed_transform whole fun _ => keeps.good
  bottom := rfl
  join leftWhole rightWhole :=
    congrArg mk ((Partition.joinMapOn_transform keeps).join leftWhole rightWhole)

theorem joinMapOn_addFeatures {stamped : FeatureSet}
    (admits : FeatureSet.Admits GoodFeatures stamped) :
    JoinMapOn (@Whole heuristics GoodFeatures) (Whole GoodFeatures)
      fun taint => taint.addFeatures stamped := by
  unfold addFeatures
  split
  · exact .of_unchanged fun _ _ => rfl
  · exact joinMapOn_frames (TaintFrame.joinMapOn_addFeatures admits)

theorem joinMapOn_addPositions (stamped : PositionSet heuristics) :
    JoinMapOn (@Whole heuristics GoodFeatures) (Whole GoodFeatures)
      fun taint => taint.addPositions stamped := by
  unfold addPositions
  split
  · exact .of_unchanged fun _ _ => rfl
  · exact joinMapOn_frames (TaintFrame.joinMapOn_addPositions stamped)

/-! ### The order of stamps -/

section Commuting

variable {taint : Taint heuristics} (whole : taint.Whole GoodFeatures)

include whole

theorem addFeatures_right_comm {first second : FeatureSet}
    (admitsFirst : FeatureSet.Admits GoodFeatures first)
    (admitsSecond : FeatureSet.Admits GoodFeatures second) :
    (taint.addFeatures first).addFeatures second =
      (taint.addFeatures second).addFeatures first := by
  unfold addFeatures
  split
  · rfl
  · split
    · rfl
    · exact congrArg mk (Partition.transform_comm (TaintFrame.joinMapOn_addFeatures admitsFirst)
        (TaintFrame.joinMapOn_addFeatures admitsSecond)
        (fun _ frameWhole => TaintFrame.addFeatures_right_comm frameWhole first second) whole)

theorem addFeatures_twice {stamped : FeatureSet}
    (admits : FeatureSet.Admits GoodFeatures stamped) :
    (taint.addFeatures stamped).addFeatures stamped = taint.addFeatures stamped := by
  have keeps : JoinMapOn (@TaintFrame.Whole heuristics GoodFeatures) _ _ :=
    TaintFrame.joinMapOn_addFeatures admits
  unfold addFeatures
  split
  · rfl
  · exact congrArg mk (Partition.transform_transform keeps keeps keeps
      (fun _ frameWhole => TaintFrame.addFeatures_twice frameWhole stamped) whole)

theorem addPositions_addFeatures (positions : PositionSet heuristics) {features : FeatureSet}
    (admits : FeatureSet.Admits GoodFeatures features) :
    (taint.addFeatures features).addPositions positions =
      (taint.addPositions positions).addFeatures features := by
  unfold addFeatures addPositions
  split
  · rfl
  · split
    · rfl
    · exact congrArg mk (Partition.transform_comm (TaintFrame.joinMapOn_addFeatures admits)
        (TaintFrame.joinMapOn_addPositions positions)
        (fun _ frameWhole => TaintFrame.addPositions_addFeatures frameWhole positions features)
        whole)

end Commuting

/-! ### Kinds -/

theorem lacks_addFeatures_iff {stamped : FeatureSet}
    (admits : FeatureSet.Admits GoodFeatures stamped)
    {taint : Taint heuristics} (whole : taint.Whole GoodFeatures) (kind : Kind) :
    (taint.addFeatures stamped).Lacks kind ↔ taint.Lacks kind := by
  unfold addFeatures
  split
  · exact Iff.rfl
  · refine Partition.lacks_transform_iff ?_ whole kind
    intro frame
    exact (TaintFrame.smash_whole GoodFeatures).filled_change
      (TaintFrame.changesParts_addFeatures admits)

theorem lacks_addPositions_iff (stamped : PositionSet heuristics)
    {taint : Taint heuristics} (whole : taint.Whole GoodFeatures) (kind : Kind) :
    (taint.addPositions stamped).Lacks kind ↔ taint.Lacks kind := by
  unfold addPositions
  split
  · exact Iff.rfl
  · refine Partition.lacks_transform_iff ?_ whole kind
    intro frame
    exact (TaintFrame.smash_whole GoodFeatures).filled_change
      (TaintFrame.changesParts_addPositions stamped)

theorem kinds_addFeatures {stamped : FeatureSet}
    (admits : FeatureSet.Admits GoodFeatures stamped)
    {taint : Taint heuristics} (whole : taint.Whole GoodFeatures) :
    (taint.addFeatures stamped).kinds = taint.kinds := by
  unfold addFeatures
  split
  · rfl
  · refine Partition.keys_transform whole ?_
    intro frame
    exact (TaintFrame.smash_whole GoodFeatures).filled_change
      (TaintFrame.changesParts_addFeatures admits)

theorem kinds_addPositions (stamped : PositionSet heuristics)
    {taint : Taint heuristics} (whole : taint.Whole GoodFeatures) :
    (taint.addPositions stamped).kinds = taint.kinds := by
  unfold addPositions
  split
  · rfl
  · refine Partition.keys_transform whole ?_
    intro frame
    exact (TaintFrame.smash_whole GoodFeatures).filled_change
      (TaintFrame.changesParts_addPositions stamped)

omit [SemilatticeOn GoodFeatures] in
theorem isTop_addFeatures (taint : Taint heuristics) (stamped : FeatureSet) :
    (taint.addFeatures stamped).frames.isTop = taint.frames.isTop := by
  unfold addFeatures
  split
  · rfl
  · exact Partition.isTop_transform _ _

omit [SemilatticeOn GoodFeatures] in
theorem isTop_addPositions (taint : Taint heuristics) (stamped : PositionSet heuristics) :
    (taint.addPositions stamped).frames.isTop = taint.frames.isTop := by
  unfold addPositions
  split
  · rfl
  · exact Partition.isTop_transform _ _

/-! ### Greater stamps -/

theorem addFeatures_eq_transform {stamped : FeatureSet} (formed : stamped.WellFormed)
    (filled : stamped ≠ .bottom) {taint : Taint heuristics} (whole : taint.Whole GoodFeatures) :
    taint.addFeatures stamped = ⟨taint.frames.transform fun frame => frame.addFeatures stamped⟩ := by
  unfold addFeatures
  split
  · rename_i skipped
    have nothing : stamped.isEmpty := by
      simpa [FeatureSet.isBottom, filled] using skipped
    have unchanged (frame : TaintFrame heuristics) (whole : frame.Whole GoodFeatures) :=
      TaintFrame.addFeatures_eq_self whole formed nothing
    exact congrArg mk (Partition.transform_eq_self unchanged whole).symm
  · rfl

theorem addPositions_eq_transform {stamped : PositionSet heuristics} (filled : stamped ≠ .bottom)
    {taint : Taint heuristics} (whole : taint.Whole GoodFeatures) :
    taint.addPositions stamped =
      ⟨taint.frames.transform fun frame => frame.addPositions stamped⟩ := by
  unfold addPositions
  split
  · rename_i skipped
    have nothing : stamped.isEmpty := by
      simpa [PositionSet.isBottom, filled] using skipped
    have unchanged (frame : TaintFrame heuristics) (whole : frame.Whole GoodFeatures) :=
      TaintFrame.addPositions_eq_self whole nothing
    exact congrArg mk (Partition.transform_eq_self unchanged whole).symm
  · rfl

theorem frame_addFeatures {stamped : FeatureSet} (formed : stamped.WellFormed)
    (filled : stamped ≠ .bottom) (admits : FeatureSet.Admits GoodFeatures stamped)
    {taint : Taint heuristics} (whole : taint.Whole GoodFeatures) (kind : Kind) :
    (taint.addFeatures stamped).frame kind = (taint.frame kind).addFeatures stamped := by
  have unlimited : (HasTop.top : TaintFrame heuristics).addFeatures stamped = HasTop.top := by
    cases stamped <;> rfl
  rw [addFeatures_eq_transform formed filled whole]
  exact Partition.get_transform (TaintFrame.joinMapOn_addFeatures admits) unlimited whole kind

theorem frame_addPositions {stamped : PositionSet heuristics} (filled : stamped ≠ .bottom)
    {taint : Taint heuristics} (whole : taint.Whole GoodFeatures) (kind : Kind) :
    (taint.addPositions stamped).frame kind = (taint.frame kind).addPositions stamped := by
  have unlimited : (HasTop.top : TaintFrame heuristics).addPositions stamped = HasTop.top := by
    cases stamped <;> rfl
  rw [addPositions_eq_transform filled whole]
  exact Partition.get_transform (TaintFrame.joinMapOn_addPositions stamped) unlimited whole kind

theorem addPositions_leq_addPositions {smaller greater : PositionSet heuristics}
    (smallerFilled : smaller ≠ .bottom) (greaterFilled : greater ≠ .bottom)
    (covered : smaller.leq greater)
    {taint : Taint heuristics} (whole : taint.Whole GoodFeatures) :
    Domain.leq (taint.addPositions smaller) (taint.addPositions greater) := by
  rw [addPositions_eq_transform smallerFilled whole, addPositions_eq_transform greaterFilled whole]
  exact Partition.transform_leq_transform (TaintFrame.joinMapOn_addPositions smaller)
    (TaintFrame.joinMapOn_addPositions greater)
    (fun _ frameWhole => TaintFrame.addPositions_leq_addPositions covered frameWhole) whole

theorem addFeatures_leq_addFeatures {smaller greater : FeatureSet}
    (smallerFormed : smaller.WellFormed) (greaterFormed : greater.WellFormed)
    (smallerFilled : smaller ≠ .bottom) (greaterFilled : greater ≠ .bottom)
    (covered : smaller.leq greater)
    {taint : Taint heuristics} (formed : taint.WellFormed) :
    Domain.leq (taint.addFeatures smaller) (taint.addFeatures greater) := by
  have admitsSmaller := FeatureSet.admits_of_wellFormed smallerFormed
  have admitsGreater := FeatureSet.admits_of_wellFormed greaterFormed
  rw [addFeatures_eq_transform smallerFormed smallerFilled formed,
    addFeatures_eq_transform greaterFormed greaterFilled formed]
  refine Partition.transform_leq_transform (TaintFrame.joinMapOn_addFeatures admitsSmaller)
    (TaintFrame.joinMapOn_addFeatures admitsGreater) ?_ formed
  intro frame whole
  exact TaintFrame.addFeatures_leq_addFeatures admitsSmaller admitsGreater smallerFilled covered
    whole

theorem leq_addFeatures_ofMay (labels : List Feature)
    (admits : FeatureSet.Admits GoodFeatures (.ofMay labels))
    {taint : Taint heuristics} (whole : taint.Whole GoodFeatures) :
    Domain.leq taint (taint.addFeatures (.ofMay labels)) := by
  unfold addFeatures
  split
  · exact SemilatticeOn.leq_refl whole
  · have unchanged (frame : TaintFrame heuristics) (_ : frame.Whole GoodFeatures) :
        id frame = frame := rfl
    have covered : Domain.leq (taint.frames.transform id) _ :=
      Partition.transform_leq_transform (.of_unchanged unchanged)
        (TaintFrame.joinMapOn_addFeatures admits)
        (fun _ frameWhole => TaintFrame.leq_addFeatures_ofMay labels admits frameWhole) whole
    rwa [Partition.transform_eq_self unchanged whole] at covered

end Taint

end AliasTaint
