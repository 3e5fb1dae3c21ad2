import AliasTaint.Proofs.Value.WellFormed
import Mathlib.Algebra.Order.BigOperators.Group.Finset

/-!
# Ranks of taint

Taint may grow without end, since there is no end of kinds, features and positions.  Taint that is
only ever joined with taint over given kinds and features cannot: its rank counts how much of these it
has gathered so far, and grows whenever such a join changes it.  Positions need no alphabet, because a
set of positions gives up at the limit of the heuristics.
-/

namespace AliasTaint

open Domain

variable {V W : Type} [Domain V] [Domain W]

/-- A rank that is bounded, follows the order and grows from a value to a greater one whenever the
greater one covers something over the alphabet that the smaller one does not. -/
structure Domain.Ranking (Good Over : V → Prop) (rank : V → Nat) (bound : Nat) : Prop where
  rank_le {value : V} : Good value → rank value ≤ bound
  monotone {smaller greater : V} : Good smaller → Good greater →
    leq smaller greater → rank smaller ≤ rank greater
  rises {addition smaller greater : V} : Good addition → Good smaller → Good greater →
    Over addition → leq smaller greater → leq addition greater → ¬ leq addition smaller →
    rank smaller < rank greater

namespace Domain.Ranking

/-- A domain that takes its order from another takes its ranks from there. -/
theorem comap {Good Over : V → Prop} {rank : V → Nat} {bound : Nat}
    (ranking : Ranking Good Over rank bound)
    {GoodBefore OverBefore : W → Prop} {parts : W → V}
    (good : ∀ value, GoodBefore value → Good (parts value))
    (isOver : ∀ value, OverBefore value → Over (parts value))
    (leq_iff : ∀ left right, GoodBefore left → GoodBefore right →
      (leq left right ↔ leq (parts left) (parts right))) :
    Ranking GoodBefore OverBefore (fun value => rank (parts value)) bound where
  rank_le goodValue := ranking.rank_le (good _ goodValue)
  monotone goodSmaller goodGreater covered :=
    ranking.monotone (good _ goodSmaller) (good _ goodGreater)
      ((leq_iff _ _ goodSmaller goodGreater).mp covered)
  rises goodAddition goodSmaller goodGreater overAddition covered added isNew :=
    ranking.rises (good _ goodAddition) (good _ goodSmaller) (good _ goodGreater)
      (isOver _ overAddition) ((leq_iff _ _ goodSmaller goodGreater).mp covered)
      ((leq_iff _ _ goodAddition goodGreater).mp added)
      fun partsCovered => isNew ((leq_iff _ _ goodAddition goodSmaller).mpr partsCovered)

/-- A pair gathers what its parts gather. -/
theorem pair {GoodFirst OverFirst : V → Prop} {rankFirst : V → Nat} {boundFirst : Nat}
    (first : Ranking GoodFirst OverFirst rankFirst boundFirst)
    {GoodSecond OverSecond : W → Prop} {rankSecond : W → Nat} {boundSecond : Nat}
    (second : Ranking GoodSecond OverSecond rankSecond boundSecond) :
    Ranking (GoodPair GoodFirst GoodSecond) (GoodPair OverFirst OverSecond)
      (fun values => rankFirst values.1 + rankSecond values.2) (boundFirst + boundSecond) where
  rank_le good := Nat.add_le_add (first.rank_le good.1) (second.rank_le good.2)
  monotone goodSmaller goodGreater covered := by
    obtain ⟨firstCovered, secondCovered⟩ := pair_leq_iff.mp covered
    exact Nat.add_le_add (first.monotone goodSmaller.1 goodGreater.1 firstCovered)
      (second.monotone goodSmaller.2 goodGreater.2 secondCovered)
  rises {addition smaller greater} goodAddition goodSmaller goodGreater overAddition covered added
      isNew := by
    obtain ⟨firstCovered, secondCovered⟩ := pair_leq_iff.mp covered
    obtain ⟨firstAdded, secondAdded⟩ := pair_leq_iff.mp added
    have firstRank := first.monotone goodSmaller.1 goodGreater.1 firstCovered
    have secondRank := second.monotone goodSmaller.2 goodGreater.2 secondCovered
    by_cases firstOld : leq addition.1 smaller.1
    · have secondNew : ¬ leq addition.2 smaller.2 := fun secondOld =>
        isNew (pair_leq_iff.mpr ⟨firstOld, secondOld⟩)
      have rises := second.rises goodAddition.2 goodSmaller.2 goodGreater.2 overAddition.2
        secondCovered secondAdded secondNew
      omega
    · have rises := first.rises goodAddition.1 goodSmaller.1 goodGreater.1 overAddition.1
        firstCovered firstAdded firstOld
      omega

end Domain.Ranking

/-! ## Features -/

namespace FeatureSet

variable {features : Finset Feature}

/-- All features that may or always hold come from the alphabet. -/
def Over (features : Finset Feature) : FeatureSet → Prop
  | .value may always =>
      (∀ feature ∈ may, feature ∈ features) ∧ ∀ feature ∈ always, feature ∈ features
  | _ => True

instance : DecidablePred (Over features)
  | .bottom => isTrue trivial
  | .value may always =>
      inferInstanceAs (Decidable ((∀ feature ∈ may.toList, feature ∈ features) ∧
        ∀ feature ∈ always.toList, feature ∈ features))
  | .top => isTrue trivial

/-- The features of the alphabet that belong to a set. -/
def inside (features : Finset Feature) (set : SortedSet Feature) : Finset Feature :=
  features.filter fun feature => set.contains feature

/-- The features of the alphabet that do not belong to a set. -/
def outside (features : Finset Feature) (set : SortedSet Feature) : Finset Feature :=
  features.filter fun feature => !set.contains feature

theorem mem_inside {set : SortedSet Feature} {feature : Feature} :
    feature ∈ inside features set ↔ feature ∈ features ∧ feature ∈ set := by
  rw [inside, Finset.mem_filter, SortedSet.contains_iff]

theorem mem_outside {set : SortedSet Feature} {feature : Feature} :
    feature ∈ outside features set ↔ feature ∈ features ∧ feature ∉ set := by
  rw [outside, Finset.mem_filter, Bool.not_eq_true', ← Bool.not_eq_true, SortedSet.contains_iff]

theorem inside_subset (features : Finset Feature) {set other : SortedSet Feature}
    (isSubset : set.subset other) :
    inside features set ⊆ inside features other := by
  intro feature member
  rw [mem_inside] at member ⊢
  exact ⟨member.1, SortedSet.subset_iff.mp isSubset feature member.2⟩

theorem outside_subset (features : Finset Feature) {set other : SortedSet Feature}
    (isSubset : set.subset other) :
    outside features other ⊆ outside features set := by
  intro feature member
  rw [mem_outside] at member ⊢
  exact ⟨member.1, fun isMember => member.2 (SortedSet.subset_iff.mp isSubset feature isMember)⟩

/-- Counts the features of the alphabet that may hold, those that do not always hold, and whether all
that always hold are of the alphabet. -/
def rank (features : Finset Feature) : FeatureSet → Nat
  | .bottom => 0
  | .value may always =>
      1 + (inside features may).card + (outside features always).card +
        if ∀ feature ∈ always.toList, feature ∈ features then 1 else 0
  | .top => 2 * features.card + 3

theorem rank_value_lt_rank_top (may always : SortedSet Feature) :
    rank features (.value may always) < rank features .top := by
  have mayCount : (inside features may).card ≤ features.card := Finset.card_filter_le _ _
  have alwaysCount : (outside features always).card ≤ features.card := Finset.card_filter_le _ _
  simp only [rank]
  split <;> omega

theorem rank_value_le {may always otherMay otherAlways : SortedSet Feature}
    (mayCovered : may.subset otherMay) (alwaysCovered : otherAlways.subset always) :
    rank features (.value may always) ≤ rank features (.value otherMay otherAlways) := by
  have mayCount := Finset.card_le_card (inside_subset features mayCovered)
  have alwaysCount := Finset.card_le_card (outside_subset features alwaysCovered)
  simp only [rank]
  split
  · rename_i allOver
    have staysOver : ∀ feature ∈ otherAlways.toList, feature ∈ features := fun feature member =>
      allOver feature (SortedSet.subset_iff.mp alwaysCovered feature member)
    rw [if_pos staysOver]
    omega
  · omega

/-- A feature of the alphabet that newly may hold is counted. -/
theorem card_inside_lt {may otherMay : SortedSet Feature} (mayCovered : may.subset otherMay)
    {feature : Feature} (inAlphabet : feature ∈ features)
    (isAdded : feature ∈ otherMay) (isMissing : feature ∉ may) :
    (inside features may).card < (inside features otherMay).card := by
  refine Finset.card_lt_card
    ((Finset.ssubset_iff_of_subset (inside_subset features mayCovered)).mpr ⟨feature, ?_, ?_⟩)
  · exact mem_inside.mpr ⟨inAlphabet, isAdded⟩
  · exact fun member => isMissing (mem_inside.mp member).2

/-- A feature of the alphabet that no longer always holds is counted. -/
theorem card_outside_lt {always otherAlways : SortedSet Feature}
    (alwaysCovered : otherAlways.subset always) {feature : Feature}
    (inAlphabet : feature ∈ features) (isAlways : feature ∈ always) (isLost : feature ∉ otherAlways) :
    (outside features always).card < (outside features otherAlways).card := by
  refine Finset.card_lt_card
    ((Finset.ssubset_iff_of_subset (outside_subset features alwaysCovered)).mpr ⟨feature, ?_, ?_⟩)
  · exact mem_outside.mpr ⟨inAlphabet, isLost⟩
  · exact fun member => (mem_outside.mp member).2 isAlways

theorem rank_value_lt {may always otherMay otherAlways addedMay addedAlways : SortedSet Feature}
    (isOver : (value addedMay addedAlways).Over features)
    (mayCovered : may.subset otherMay) (alwaysCovered : otherAlways.subset always)
    (mayAdded : addedMay.subset otherMay) (alwaysAdded : otherAlways.subset addedAlways)
    (isNew : ¬ (addedMay.subset may ∧ always.subset addedAlways)) :
    rank features (.value may always) < rank features (.value otherMay otherAlways) := by
  have mayCount := Finset.card_le_card (inside_subset features mayCovered)
  have alwaysCount := Finset.card_le_card (outside_subset features alwaysCovered)
  simp only [SortedSet.subset_iff] at isNew mayAdded alwaysAdded
  have newOver : ∀ feature ∈ otherAlways.toList, feature ∈ features := fun feature member =>
    isOver.2 feature (alwaysAdded feature member)
  simp only [rank]
  rw [if_pos newOver]
  by_cases mayOld : ∀ feature ∈ addedMay, feature ∈ may
  · -- Some feature that held always is lost, inside the alphabet or outside of it.
    have alwaysNew : ∃ feature ∈ always, feature ∉ addedAlways := by
      by_contra none
      push Not at none
      exact isNew ⟨mayOld, none⟩
    obtain ⟨feature, isAlways, isLost⟩ := alwaysNew
    by_cases inAlphabet : feature ∈ features
    · have fewer := card_outside_lt alwaysCovered inAlphabet isAlways fun isMember =>
        isLost (alwaysAdded feature isMember)
      split <;> omega
    · have notOver : ¬ ∀ feature ∈ always.toList, feature ∈ features := fun allOver =>
        inAlphabet (allOver feature isAlways)
      rw [if_neg notOver]
      omega
  · push Not at mayOld
    obtain ⟨feature, isAdded, isMissing⟩ := mayOld
    have more := card_inside_lt mayCovered (isOver.1 feature isAdded) (mayAdded feature isAdded)
      isMissing
    split <;> omega

theorem ranking (features : Finset Feature) :
    Ranking WellFormed (Over features) (rank features) (2 * features.card + 3) where
  rank_le {value} _ := by
    cases value with
    | bottom =>
        exact Nat.zero_le _
    | top =>
        exact Nat.le_refl _
    | value may always =>
        exact Nat.le_of_lt (rank_value_lt_rank_top may always)
  monotone {smaller greater} _ _ covered := by
    cases smaller with
    | bottom =>
        exact Nat.zero_le _
    | top =>
        rw [top_leq_iff.mp covered]
    | value may always =>
        cases greater with
        | bottom =>
            exact nomatch covered
        | top =>
            exact Nat.le_of_lt (rank_value_lt_rank_top may always)
        | value otherMay otherAlways =>
            obtain ⟨mayCovered, alwaysCovered⟩ := value_leq_value_iff.mp covered
            exact rank_value_le mayCovered alwaysCovered
  rises {addition smaller greater} _ _ _ isOver covered added isNew := by
    cases smaller with
    | top =>
        exact absurd (leq_top addition) isNew
    | bottom =>
        cases greater with
        | bottom =>
            exact absurd added isNew
        | value otherMay otherAlways =>
            simp only [rank]
            omega
        | top =>
            simp only [rank]
            omega
    | value may always =>
        cases greater with
        | bottom =>
            exact nomatch covered
        | top =>
            exact rank_value_lt_rank_top may always
        | value otherMay otherAlways =>
            cases addition with
            | bottom =>
                exact absurd (bottom_leq _) isNew
            | top =>
                exact nomatch added
            | value addedMay addedAlways =>
                obtain ⟨mayCovered, alwaysCovered⟩ := value_leq_value_iff.mp covered
                obtain ⟨mayAdded, alwaysAdded⟩ := value_leq_value_iff.mp added
                exact rank_value_lt isOver mayCovered alwaysCovered mayAdded alwaysAdded
                  fun isOld => isNew (value_leq_value_iff.mpr isOld)

end FeatureSet

/-! ## Positions -/

namespace PositionSet

variable {heuristics : Heuristics}

/-- Counts the listed positions; a widened set comes after all of them. -/
def rank : PositionSet heuristics → Nat
  | .bottom => 0
  | .listed positions => 1 + positions.size
  | .widened => heuristics.maxPositions.toNat + 2

theorem rank_lt_of_leq {smaller greater : PositionSet heuristics}
    (smallerFormed : smaller.WellFormed) (covered : leq smaller greater)
    (differ : smaller ≠ greater) :
    rank smaller < rank greater := by
  cases smaller with
  | widened =>
      exact absurd (widened_leq_iff.mp covered).symm differ
  | bottom =>
      cases greater with
      | bottom =>
          exact absurd rfl differ
      | listed others =>
          simp only [rank]
          omega
      | widened =>
          simp only [rank]
          omega
  | listed positions =>
      cases greater with
      | bottom =>
          exact nomatch covered
      | listed others =>
          have fewer : positions.size < others.size :=
            SortedSet.size_lt_of_subset covered fun same => differ (congrArg listed same)
          simp only [rank]
          omega
      | widened =>
          have withinLimit : positions.size ≤ heuristics.maxPositions.toNat := smallerFormed
          simp only [rank]
          omega

theorem ranking :
    Ranking (@WellFormed heuristics) (fun _ => True) rank (heuristics.maxPositions.toNat + 2) where
  rank_le {value} formed := by
    cases value with
    | bottom =>
        exact Nat.zero_le _
    | widened =>
        exact Nat.le_refl _
    | listed positions =>
        have withinLimit : positions.size ≤ heuristics.maxPositions.toNat := formed
        simp only [rank]
        omega
  monotone {smaller greater} smallerFormed _ covered := by
    by_cases same : smaller = greater
    · rw [same]
    · exact Nat.le_of_lt (rank_lt_of_leq smallerFormed covered same)
  rises {addition smaller greater} _ smallerFormed _ _ covered added isNew :=
    rank_lt_of_leq smallerFormed covered fun same => isNew (same ▸ added)

end PositionSet

/-! ## Frames -/

namespace TaintFrame

variable {heuristics : Heuristics} (features : Finset Feature)

theorem leq_iff_parts {left right : TaintFrame heuristics}
    (leftFormed : left.WellFormed) (rightFormed : right.WellFormed) :
    Domain.leq left right ↔ Domain.leq left.parts right.parts := by
  have bottomParts (pair : FeatureSet × PositionSet heuristics) :
      Domain.leq (TaintFrame.bottom : TaintFrame heuristics).parts pair :=
    pair_leq_iff.mpr ⟨FeatureSet.bottom_leq _, PositionSet.bottom_leq _⟩
  rcases smash.good_iff.mp leftFormed with rfl | ⟨_, leftFull⟩
  · exact iff_of_true (smash.bottom_leq right) (bottomParts _)
  · rcases smash.good_iff.mp rightFormed with rfl | ⟨_, rightFull⟩
    · refine iff_of_false (by rw [smash.leq_bottom leftFull]; exact Bool.false_ne_true) ?_
      intro covered
      have noFeatures := FeatureSet.leq_bottom_iff.mp (pair_leq_iff.mp covered).1
      simp [noFeatures, FeatureSet.isBottom] at leftFull
    · rw [smash.leq_parts leftFull rightFull]

def rank (frame : TaintFrame heuristics) : Nat :=
  frame.features.rank features + frame.positions.rank

/-- The greatest rank of a frame over an alphabet of a given size. -/
def greatestRank (heuristics : Heuristics) (featureCount : Nat) : Nat :=
  2 * featureCount + 3 + (heuristics.maxPositions.toNat + 2)

theorem ranking :
    Ranking (@WellFormed heuristics) (fun frame => frame.features.Over features) (rank features)
      (greatestRank heuristics features.card) :=
  ((FeatureSet.ranking features).pair PositionSet.ranking).comap
    (fun frame formed => by
      rcases formed with rfl | ⟨featuresFormed, positionsFormed, _⟩
      · exact ⟨trivial, trivial⟩
      · exact ⟨featuresFormed, positionsFormed⟩)
    (fun _ isOver => ⟨isOver, trivial⟩)
    (fun _ _ => leq_iff_parts)

end TaintFrame

/-! ## Taint -/

namespace Partition

variable {K : Type} [Ord K] [DecidableEq K]

/-- All bound keys come from the alphabet, and so do their values. -/
def Over (keys : Finset K) (OverValue : V → Prop) (partition : Partition K V) : Prop :=
  ∀ entry ∈ partition.bindings, entry.1 ∈ keys ∧ OverValue entry.2

instance (keys : Finset K) (OverValue : V → Prop) [DecidablePred OverValue] :
    DecidablePred (Over keys OverValue) := fun partition =>
  inferInstanceAs (Decidable (∀ entry ∈ partition.bindings, entry.1 ∈ keys ∧ OverValue entry.2))

/-- The ranks of the values of all keys of the alphabet; top comes after all of them. -/
def rank (keys : Finset K) (rankValue : V → Nat) (bound : Nat) : Partition K V → Nat
  | .top => keys.card * bound + 1
  | .sparse map => ∑ key ∈ keys, rankValue (map.valueAt key)

variable [Std.TransOrd K] [Std.LawfulEqOrd K] {keys : Finset K} {Good OverValue : V → Prop}
  [SemilatticeOn Good]
  {rankValue : V → Nat} {bound : Nat}

omit [Std.TransOrd K] [Std.LawfulEqOrd K] in
theorem rank_sparse_lt_rank_top (ranking : Ranking Good OverValue rankValue bound)
    {map : SortedMap K V} (stores : map.Stores Good) :
    rank keys rankValue bound (.sparse map) < rank keys rankValue bound .top := by
  have valueRanks : ∀ key ∈ keys, rankValue (map.valueAt key) ≤ bound := fun key _ =>
    ranking.rank_le (stores.valueAt key)
  exact Nat.lt_succ_of_le (Finset.sum_le_card_nsmul keys _ bound valueRanks)

omit [Std.TransOrd K] in
/-- Only at a bound key can a sparse partition have a value that is not covered. -/
theorem exists_key_of_not_leq {left right : SortedMap K V}
    (leftStores : left.Stores Good) (rightStores : right.Stores Good)
    (isNew : ¬ leq (.sparse left) (.sparse right)) :
    ∃ key value, left.get? key = some value ∧
      ¬ Domain.leq (left.valueAt key) (right.valueAt key) := by
  rw [sparse_leq_sparse_iff leftStores rightStores] at isNew
  push Not at isNew
  obtain ⟨key, keyNew⟩ := isNew
  cases found : left.get? key with
  | some value =>
      exact ⟨key, value, found, keyNew⟩
  | none =>
      rw [SortedMap.valueAt, found, Option.getD_none] at keyNew
      exact absurd (SemilatticeOn.bottom_leq (rightStores.valueAt key)) keyNew

/-- A partition gathers what its keys gather. -/
theorem ranking (ranking : Ranking Good OverValue rankValue bound) :
    Ranking (WellFormed Good) (Over keys OverValue) (rank keys rankValue bound)
      (keys.card * bound + 1) where
  rank_le {partition} formed := by
    cases partition with
    | top =>
        exact Nat.le_refl _
    | sparse map =>
        exact Nat.le_of_lt (rank_sparse_lt_rank_top ranking formed)
  monotone {smaller greater} smallerFormed greaterFormed covered := by
    cases smaller with
    | top =>
        cases greater with
        | top =>
            exact Nat.le_refl _
        | sparse map =>
            exact nomatch covered
    | sparse map =>
        cases greater with
        | top =>
            exact Nat.le_of_lt (rank_sparse_lt_rank_top ranking smallerFormed)
        | sparse other =>
            have values := (sparse_leq_sparse_iff smallerFormed greaterFormed).mp covered
            exact Finset.sum_le_sum fun key _ => ranking.monotone
              (SortedMap.Stores.valueAt smallerFormed key)
              (SortedMap.Stores.valueAt greaterFormed key) (values key)
  rises {addition smaller greater} additionFormed smallerFormed greaterFormed isOver covered added
      isNew := by
    cases smaller with
    | top =>
        exact absurd (leq_top addition) isNew
    | sparse map =>
        cases greater with
        | top =>
            exact rank_sparse_lt_rank_top ranking smallerFormed
        | sparse other =>
            cases addition with
            | top =>
                exact nomatch added
            | sparse more =>
                have values := (sparse_leq_sparse_iff smallerFormed greaterFormed).mp covered
                have moreValues := (sparse_leq_sparse_iff additionFormed greaterFormed).mp added
                obtain ⟨key, value, found, keyNew⟩ :=
                  exists_key_of_not_leq additionFormed smallerFormed isNew
                obtain ⟨keyOver, valueOver⟩ := isOver (key, value) (Entries.mem_of_lookup found)
                have rises := ranking.rises (SortedMap.Stores.valueAt additionFormed key)
                  (SortedMap.Stores.valueAt smallerFormed key)
                  (SortedMap.Stores.valueAt greaterFormed key)
                  (SortedMap.valueAt_of_get? found ▸ valueOver) (values key) (moreValues key) keyNew
                exact Finset.sum_lt_sum (fun key _ => ranking.monotone
                  (SortedMap.Stores.valueAt smallerFormed key)
                  (SortedMap.Stores.valueAt greaterFormed key) (values key)) ⟨key, keyOver, rises⟩

omit [Std.TransOrd K] [SemilatticeOn Good] in
theorem Over.transform {partition : Partition K V}
    (isOver : partition.Over keys OverValue)
    {change : V → V} (keeps : ∀ value, OverValue value → OverValue (change value)) :
    (partition.transform change).Over keys OverValue := by
  cases partition with
  | top =>
      exact isOver
  | sparse map =>
      rintro ⟨key, value⟩ member
      have found : (map.changed change).get? key = some value :=
        (map.changed change).increasing.lookup_eq_some_iff.mpr member
      rw [SortedMap.get?_changed] at found
      obtain ⟨original, originalFound, kept⟩ := Option.bind_eq_some_iff.mp found
      obtain ⟨keyOver, originalOver⟩ := isOver (key, original) (Entries.mem_of_lookup originalFound)
      rw [(nonBottom?_eq_some kept).1]
      exact ⟨keyOver, keeps original originalOver⟩

end Partition

namespace Taint

variable {heuristics : Heuristics} (kinds : Finset Kind) (features : Finset Feature)

/-- All kinds and features come from the alphabets; the positions may be any. -/
def Over (taint : Taint heuristics) : Prop :=
  taint.frames.Over kinds fun frame => frame.features.Over features

instance : DecidablePred (@Over heuristics kinds features) := fun taint =>
  inferInstanceAs (Decidable (taint.frames.Over kinds fun frame => frame.features.Over features))

def rank (taint : Taint heuristics) : Nat :=
  taint.frames.rank kinds (TaintFrame.rank features)
    (TaintFrame.greatestRank heuristics features.card)

/-- The greatest rank of taint over alphabets of given sizes. -/
def greatestRank (heuristics : Heuristics) (kindCount featureCount : Nat) : Nat :=
  kindCount * TaintFrame.greatestRank heuristics featureCount + 1

theorem ranking :
    Ranking (@WellFormed heuristics) (Over kinds features) (rank kinds features)
      (greatestRank heuristics kinds.card features.card) :=
  (Partition.ranking (TaintFrame.ranking features)).comap (fun _ formed => formed)
    (fun _ isOver => isOver) (fun _ _ _ _ => Iff.rfl)

end Taint

end AliasTaint
