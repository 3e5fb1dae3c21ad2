import AliasTaint.Proofs.Ideal
import AliasTaint.Proofs.Value.WellFormed

/-!
# Domains that accumulate

Some laws of the domains hold of all values, whether well-formed or not: joins may be taken in any
order, joining bottom changes nothing, and a join grows with its parts.  What is missing is that the
join of a value with itself is that value, since a position set beyond its limit is widened by any
join.  Where each value is joined only once, these laws are enough.
-/

namespace AliasTaint

open Domain

/-! ## The laws -/

/-- The laws of accumulating values, without any condition on the values. -/
class CumulativeDomain (V : Type) [Domain V] : Prop where
  isBottom_iff {value : V} : isBottom value ↔ value = bottom
  bottom_leq (value : V) : leq bottom value
  leq_refl (value : V) : leq value value
  leq_trans {first second third : V} : leq first second → leq second third → leq first third
  join_bottom (value : V) : join value bottom = value
  join_comm (left right : V) : join left right = join right left
  join_assoc (first second third : V) :
    join (join first second) third = join first (join second third)
  join_leq_join {left right : V} (other : V) :
    leq left right → leq (join left other) (join right other)

namespace CumulativeDomain

variable {V : Type} [Domain V] [CumulativeDomain V]

theorem isBottom_bottom : isBottom (bottom : V) :=
  isBottom_iff.mpr rfl

theorem bottom_join (value : V) : join bottom value = value := by
  rw [join_comm, join_bottom]

theorem join_mono {left right upperLeft upperRight : V}
    (leftCovered : leq left upperLeft) (rightCovered : leq right upperRight) :
    leq (join left right) (join upperLeft upperRight) := by
  refine leq_trans (join_leq_join right leftCovered) ?_
  rw [join_comm upperLeft, join_comm upperLeft]
  exact join_leq_join upperLeft rightCovered

theorem leq_join_left (left right : V) : leq left (join left right) := by
  have grown := join_mono (leq_refl left) (bottom_leq right)
  rwa [join_bottom] at grown

theorem leq_join_right (left right : V) : leq right (join left right) := by
  rw [join_comm]
  exact leq_join_left right left

end CumulativeDomain

/-! ## Domains from other domains -/

/-- A semilattice of all values accumulates. -/
theorem SemilatticeOn.cumulative {V : Type} [Domain V] (laws : SemilatticeOn fun _ : V => True) :
    CumulativeDomain V := by
  have leq_join_iff {left right upper : V} :
      leq (join left right) upper ↔ leq left upper ∧ leq right upper :=
    laws.join_leq_iff trivial trivial trivial
  have eq_of_bounds {left right : V} (same : ∀ upper, leq left upper ↔ leq right upper) :
      left = right :=
    laws.eq_of_leq_iff trivial trivial fun upper _ => same upper
  refine ⟨laws.isBottom_iff trivial, fun _ => laws.bottom_leq trivial,
    fun _ => laws.leq_refl trivial, laws.leq_trans trivial trivial trivial,
    fun _ => laws.join_bottom trivial, ?comm, ?assoc, ?grows⟩
  case comm =>
    intro left right
    refine eq_of_bounds fun upper => ?_
    rw [leq_join_iff, leq_join_iff, and_comm]
  case assoc =>
    intro first second third
    refine eq_of_bounds fun upper => ?_
    rw [leq_join_iff, leq_join_iff, leq_join_iff, leq_join_iff, and_assoc]
  case grows =>
    intro left right other covered
    obtain ⟨rightCovered, otherCovered⟩ := leq_join_iff.mp (laws.leq_refl trivial)
    exact leq_join_iff.mpr
      ⟨laws.leq_trans trivial trivial trivial covered rightCovered, otherCovered⟩

section Pairs

variable {A B : Type} [Domain A] [Domain B]

instance [CumulativeDomain A] [CumulativeDomain B] : CumulativeDomain (A × B) where
  isBottom_iff := by
    intro pair
    rw [Prod.ext_iff]
    exact Bool.and_eq_true_iff.trans
      (and_congr CumulativeDomain.isBottom_iff CumulativeDomain.isBottom_iff)
  bottom_leq pair :=
    pair_leq_iff.mpr ⟨CumulativeDomain.bottom_leq pair.1, CumulativeDomain.bottom_leq pair.2⟩
  leq_refl pair :=
    pair_leq_iff.mpr ⟨CumulativeDomain.leq_refl pair.1, CumulativeDomain.leq_refl pair.2⟩
  leq_trans firstCovered secondCovered := by
    rw [pair_leq_iff] at firstCovered secondCovered ⊢
    exact ⟨CumulativeDomain.leq_trans firstCovered.1 secondCovered.1,
      CumulativeDomain.leq_trans firstCovered.2 secondCovered.2⟩
  join_bottom pair :=
    Prod.ext (CumulativeDomain.join_bottom pair.1) (CumulativeDomain.join_bottom pair.2)
  join_comm left right :=
    Prod.ext (CumulativeDomain.join_comm left.1 right.1)
      (CumulativeDomain.join_comm left.2 right.2)
  join_assoc first second third :=
    Prod.ext (CumulativeDomain.join_assoc first.1 second.1 third.1)
      (CumulativeDomain.join_assoc first.2 second.2 third.2)
  join_leq_join other covered := by
    rw [pair_leq_iff] at covered ⊢
    exact ⟨CumulativeDomain.join_leq_join other.1 covered.1,
      CumulativeDomain.join_leq_join other.2 covered.2⟩

instance [AntisymmetricDomain A] [AntisymmetricDomain B] : AntisymmetricDomain (A × B) where
  antisymm leftCovered rightCovered := by
    rw [pair_leq_iff] at leftCovered rightCovered
    exact Prod.ext (AntisymmetricDomain.antisymm leftCovered.1 rightCovered.1)
      (AntisymmetricDomain.antisymm leftCovered.2 rightCovered.2)

end Pairs

/-- The values of one domain are told apart, ordered and joined by their parts in another. -/
structure Domain.ByParts {W P : Type} [Domain W] [Domain P] (parts : W → P) : Prop where
  injective : Function.Injective parts
  bottom : parts bottom = bottom
  isBottom (value : W) : isBottom value = isBottom (parts value)
  leq (left right : W) : leq left right = leq (parts left) (parts right)
  join (left right : W) : parts (join left right) = join (parts left) (parts right)

namespace Domain.ByParts

variable {W P : Type} [Domain W] [Domain P] {parts : W → P}

theorem cumulative [CumulativeDomain P] (byParts : ByParts parts) : CumulativeDomain W where
  isBottom_iff := by
    intro value
    rw [byParts.isBottom, CumulativeDomain.isBottom_iff, ← byParts.bottom,
      byParts.injective.eq_iff]
  bottom_leq value := by
    rw [byParts.leq, byParts.bottom]
    exact CumulativeDomain.bottom_leq _
  leq_refl value := by
    rw [byParts.leq]
    exact CumulativeDomain.leq_refl _
  leq_trans firstCovered secondCovered := by
    rw [byParts.leq] at firstCovered secondCovered ⊢
    exact CumulativeDomain.leq_trans firstCovered secondCovered
  join_bottom value := by
    apply byParts.injective
    rw [byParts.join, byParts.bottom, CumulativeDomain.join_bottom]
  join_comm left right := by
    apply byParts.injective
    rw [byParts.join, byParts.join, CumulativeDomain.join_comm]
  join_assoc first second third := by
    apply byParts.injective
    rw [byParts.join, byParts.join, byParts.join, byParts.join, CumulativeDomain.join_assoc]
  join_leq_join other covered := by
    rw [byParts.leq] at covered ⊢
    rw [byParts.join, byParts.join]
    exact CumulativeDomain.join_leq_join _ covered

theorem antisymmetric [AntisymmetricDomain P] (byParts : ByParts parts) :
    AntisymmetricDomain W where
  antisymm leftCovered rightCovered := by
    rw [byParts.leq] at leftCovered rightCovered
    exact byParts.injective (AntisymmetricDomain.antisymm leftCovered rightCovered)

end Domain.ByParts

/-! ## Values -/

instance : CumulativeDomain CollapseDepth :=
  semilatticeOn_true.cumulative

instance : CumulativeDomain FeatureSet :=
  SemilatticeOn.cumulative inferInstance

instance : AntisymmetricDomain FeatureSet where
  antisymm := FeatureSet.leq_antisymm

theorem SortedSet.union_comm {K : Type} [Ord K] [Std.TransOrd K] [Std.LawfulEqOrd K]
    (left right : SortedSet K) : left.union right = right.union left :=
  SortedSet.ext_mem fun found => by rw [mem_union, mem_union, or_comm]

theorem SortedSet.union_assoc {K : Type} [Ord K] [Std.TransOrd K] [Std.LawfulEqOrd K]
    (first second third : SortedSet K) :
    (first.union second).union third = first.union (second.union third) :=
  SortedSet.ext_mem fun found => by
    rw [mem_union, mem_union, mem_union, mem_union, or_assoc]

namespace PositionSet

variable {heuristics : Heuristics}

theorem join_bottom (positions : PositionSet heuristics) : join positions .bottom = positions := by
  cases positions <;> rfl

theorem join_comm (left right : PositionSet heuristics) : join left right = join right left := by
  cases left with
  | bottom =>
      rw [join_bottom]
      cases right <;> rfl
  | widened =>
      cases right <;> rfl
  | listed positions =>
      cases right with
      | bottom => rfl
      | widened => rfl
      | listed others =>
          rw [join, join, SortedSet.union_comm]

/-- More positions are beyond the limit if fewer are. -/
theorem limited_leq_limited {positions others : SortedSet Position}
    (isSubset : positions.subset others) :
    leq (limited positions : PositionSet heuristics) (limited others) := by
  have smaller : positions.size ≤ others.size := SortedSet.size_le_of_subset isSubset
  unfold limited
  split
  · have beyond : heuristics.maxPositions.toNat < others.size := by omega
    rw [if_pos beyond]
    rfl
  · split
    · rfl
    · exact isSubset

theorem listed_leq_limited {positions others : SortedSet Position}
    (isSubset : positions.subset others) :
    leq (.listed positions : PositionSet heuristics) (limited others) := by
  unfold limited
  split
  · rfl
  · exact isSubset

/-- A set that was widened for its size stays widened. -/
theorem limited_join_listed (positions others : SortedSet Position) :
    join (limited positions : PositionSet heuristics) (.listed others) =
      limited (positions.union others) := by
  by_cases beyond : heuristics.maxPositions.toNat < positions.size
  · have larger : positions.size ≤ (positions.union others).size :=
      SortedSet.size_le_of_subset (SortedSet.subset_iff.mpr fun position member =>
        SortedSet.mem_union.mpr (Or.inl member))
    have unionBeyond : heuristics.maxPositions.toNat < (positions.union others).size := by omega
    rw [limited, if_pos beyond, limited, if_pos unionBeyond]
    rfl
  · rw [limited, if_neg beyond]
    rfl

theorem join_assoc (first second third : PositionSet heuristics) :
    join (join first second) third = join first (join second third) := by
  cases third with
  | bottom =>
      rw [join_bottom, join_bottom]
  | widened =>
      cases second <;> cases first <;> rfl
  | listed third =>
      cases second with
      | bottom =>
          rw [join_bottom]
          rfl
      | widened =>
          cases first <;> rfl
      | listed second =>
          have bothListed : join (.listed second) (.listed third) =
              (limited (second.union third) : PositionSet heuristics) := rfl
          cases first with
          | bottom =>
              rw [bothListed, join_comm .bottom (limited _), join_bottom]
              rfl
          | widened =>
              rw [bothListed, join_comm .widened (limited _)]
              unfold limited
              split <;> rfl
          | listed first =>
              rw [bothListed, join_comm (.listed first) (limited _), limited_join_listed,
                SortedSet.union_comm, ← SortedSet.union_assoc, ← limited_join_listed]
              rfl

theorem join_leq_join {left right : PositionSet heuristics} (other : PositionSet heuristics)
    (covered : leq left right) : leq (join left other) (join right other) := by
  cases other with
  | bottom =>
      rwa [join_bottom, join_bottom]
  | widened =>
      cases right <;> exact leq_widened _
  | listed others =>
      cases left with
      | bottom =>
          cases right with
          | bottom => exact leq_refl _
          | widened => exact leq_widened _
          | listed positions =>
              refine listed_leq_limited (SortedSet.subset_iff.mpr fun position member => ?_)
              exact SortedSet.mem_union.mpr (Or.inr member)
      | widened =>
          rw [widened_leq_iff.mp covered]
          exact leq_refl _
      | listed positions =>
          cases right with
          | bottom => exact nomatch covered
          | widened => exact leq_widened _
          | listed greater =>
              have isSubset := SortedSet.subset_iff.mp covered
              refine limited_leq_limited (SortedSet.subset_iff.mpr fun position member => ?_)
              rw [SortedSet.mem_union] at member ⊢
              exact member.imp_left (isSubset position)

instance : CumulativeDomain (PositionSet heuristics) where
  isBottom_iff := isBottom_iff
  bottom_leq := bottom_leq
  leq_refl := leq_refl
  leq_trans := leq_trans
  join_bottom := join_bottom
  join_comm := join_comm
  join_assoc := join_assoc
  join_leq_join := join_leq_join

instance : AntisymmetricDomain (PositionSet heuristics) where
  antisymm := leq_antisymm

end PositionSet

/-! ## Frames and edges -/

theorem Domain.eq_bottom_of_leq_bottom {V : Type} [Domain V] [CumulativeDomain V]
    [AntisymmetricDomain V] {value : V} (covered : leq value bottom) : value = bottom :=
  AntisymmetricDomain.antisymm covered (CumulativeDomain.bottom_leq value)

/-- Tests for bottom in front of the order and the join of parts change neither. -/
theorem Domain.byParts_of_tests {W P : Type} [Domain W] [Domain P] [CumulativeDomain P]
    [AntisymmetricDomain P] {parts : W → P} (whole : P → W)
    (injective : Function.Injective parts)
    (bottom_eq : parts bottom = bottom)
    (isBottom_eq : ∀ value, isBottom value = isBottom (parts value))
    (leq_eq : ∀ left right, leq left right =
      if isBottom left then true else if isBottom right then false
      else leq (parts left) (parts right))
    (join_eq : ∀ left right, join left right =
      if isBottom right then left else if isBottom left then right
      else whole (join (parts left) (parts right)))
    (parts_whole : ∀ pair, parts (whole pair) = pair) : ByParts parts := by
  refine ⟨injective, bottom_eq, isBottom_eq, ?leq, ?join⟩
  case leq =>
    intro left right
    rw [leq_eq, isBottom_eq, isBottom_eq]
    split
    · rename_i leftBottom
      rw [CumulativeDomain.isBottom_iff.mp leftBottom, CumulativeDomain.bottom_leq]
    · rename_i leftFilled
      split
      · rename_i rightBottom
        rw [CumulativeDomain.isBottom_iff.mp rightBottom, eq_comm, Bool.eq_false_iff]
        intro covered
        exact leftFilled (CumulativeDomain.isBottom_iff.mpr (eq_bottom_of_leq_bottom covered))
      · rfl
  case join =>
    intro left right
    rw [join_eq, isBottom_eq, isBottom_eq]
    split
    · rename_i rightBottom
      rw [CumulativeDomain.isBottom_iff.mp rightBottom, CumulativeDomain.join_bottom]
    · split
      · rename_i leftBottom
        rw [CumulativeDomain.isBottom_iff.mp leftBottom, CumulativeDomain.bottom_join]
      · exact parts_whole _

variable {heuristics : Heuristics}

theorem TaintFrame.byParts : ByParts (@TaintFrame.parts heuristics) := by
  refine byParts_of_tests (fun pair => ⟨pair.1, pair.2⟩) ?_ rfl (fun _ => rfl) (fun _ _ => rfl)
    (fun _ _ => rfl) (fun _ => rfl)
  rintro ⟨features, positions⟩ ⟨others, otherPositions⟩ same
  cases same
  rfl

instance : CumulativeDomain (TaintFrame heuristics) :=
  TaintFrame.byParts.cumulative

instance : AntisymmetricDomain (TaintFrame heuristics) :=
  TaintFrame.byParts.antisymmetric

theorem EdgeProperties.byParts : ByParts (@EdgeProperties.parts heuristics) := by
  refine byParts_of_tests (fun triple => ⟨triple.1.1, triple.1.2, triple.2⟩) ?_ rfl (fun _ => rfl)
    (fun _ _ => rfl) (fun _ _ => rfl) (fun _ => rfl)
  rintro ⟨positions, features, depth⟩ ⟨otherPositions, otherFeatures, otherDepth⟩ same
  cases same
  rfl

instance : CumulativeDomain (EdgeProperties heuristics) :=
  EdgeProperties.byParts.cumulative

instance : AntisymmetricDomain (EdgeProperties heuristics) :=
  EdgeProperties.byParts.antisymmetric

/-! ## Partitions -/

section Partitions

variable {K V : Type} [Ord K] [DecidableEq K] [Std.TransOrd K] [Std.LawfulEqOrd K]

theorem SortedMap.ext_get? {left right : SortedMap K V}
    (sameBindings : ∀ key, left.get? key = right.get? key) : left = right :=
  SortedMap.ext_entries (left.increasing.eq_of_lookup_eq right.increasing sameBindings)

variable [Domain V] [CumulativeDomain V]

theorem SortedMap.valueAt_combine (left right : SortedMap K V) (key : K) :
    (left.combine join right).valueAt key = join (left.valueAt key) (right.valueAt key) := by
  simp only [valueAt, get?_combine]
  cases left.get? key with
  | none =>
      exact (CumulativeDomain.bottom_join _).symm
  | some value =>
      cases right.get? key with
      | none =>
          exact (CumulativeDomain.join_bottom value).symm
      | some other =>
          rfl

namespace Partition

omit [CumulativeDomain V] in
theorem upper_join_empty (partition : Partition K V) : upper join partition .empty = partition := by
  cases partition with
  | top =>
      rfl
  | sparse map =>
      refine congrArg sparse (SortedMap.ext_get? fun key => ?_)
      rw [SortedMap.get?_combine]
      cases map.get? key <;> rfl

theorem upper_join_comm (left right : Partition K V) :
    upper join left right = upper join right left := by
  cases left with
  | top =>
      cases right <;> rfl
  | sparse leftMap =>
      cases right with
      | top =>
          rfl
      | sparse rightMap =>
          refine congrArg sparse (SortedMap.ext_get? fun key => ?_)
          rw [SortedMap.get?_combine, SortedMap.get?_combine]
          cases leftMap.get? key <;> cases rightMap.get? key <;>
            simp [CumulativeDomain.join_comm]

theorem upper_join_assoc (first second third : Partition K V) :
    upper join (upper join first second) third = upper join first (upper join second third) := by
  cases first with
  | top =>
      rfl
  | sparse firstMap =>
      cases second with
      | top =>
          rfl
      | sparse secondMap =>
          cases third with
          | top =>
              rfl
          | sparse thirdMap =>
              refine congrArg sparse (SortedMap.ext_get? fun key => ?_)
              simp only [SortedMap.get?_combine]
              cases firstMap.get? key <;> cases secondMap.get? key <;> cases thirdMap.get? key <;>
                simp [CumulativeDomain.join_assoc]

variable [AntisymmetricDomain V]

omit [Std.TransOrd K] in
/-- Sparse partitions are compared key by key, whatever their keys are bound to. -/
theorem sparse_leq_iff_valueAt {left right : SortedMap K V} :
    leq (.sparse left) (.sparse right) ↔
      ∀ key, Domain.leq (left.valueAt key) (right.valueAt key) := by
  have covers_iff (key : K) (value : V) :
      (right.get? key).elim (isBottom value) (Domain.leq value) = true ↔
        Domain.leq value (right.valueAt key) := by
    unfold SortedMap.valueAt
    cases right.get? key with
    | some other =>
        exact Iff.rfl
    | none =>
        refine CumulativeDomain.isBottom_iff.trans ⟨?_, Domain.eq_bottom_of_leq_bottom⟩
        rintro rfl
        exact CumulativeDomain.bottom_leq _
  rw [sparse_leq_sparse_iff_elim]
  constructor
  · intro covered key
    cases found : left.get? key with
    | none =>
        rw [SortedMap.valueAt, found]
        exact CumulativeDomain.bottom_leq _
    | some value =>
        rw [SortedMap.valueAt_of_get? found]
        exact (covers_iff key value).mp (covered (key, value) (Entries.mem_of_lookup found))
  · rintro covered ⟨key, value⟩ member
    have found : left.get? key = some value := left.increasing.lookup_eq_some_iff.mpr member
    have below := covered key
    rw [SortedMap.valueAt_of_get? found] at below
    exact (covers_iff key value).mpr below

omit [Std.TransOrd K] in
theorem leq_refl_of_cumulative (partition : Partition K V) : leq partition partition := by
  cases partition with
  | top =>
      rfl
  | sparse map =>
      exact sparse_leq_iff_valueAt.mpr fun key => CumulativeDomain.leq_refl _

omit [Std.TransOrd K] in
theorem leq_trans_of_cumulative {first second third : Partition K V}
    (firstCovered : leq first second) (secondCovered : leq second third) : leq first third := by
  cases third with
  | top =>
      exact leq_top first
  | sparse thirdMap =>
      cases second with
      | top =>
          exact nomatch secondCovered
      | sparse secondMap =>
          cases first with
          | top =>
              exact nomatch firstCovered
          | sparse firstMap =>
              rw [sparse_leq_iff_valueAt] at firstCovered secondCovered ⊢
              exact fun key => CumulativeDomain.leq_trans (firstCovered key) (secondCovered key)

theorem upper_join_leq_upper_join {left right : Partition K V} (other : Partition K V)
    (covered : leq left right) : leq (upper join left other) (upper join right other) := by
  cases right with
  | top =>
      exact leq_top _
  | sparse rightMap =>
      cases left with
      | top =>
          exact nomatch covered
      | sparse leftMap =>
          cases other with
          | top =>
              rfl
          | sparse otherMap =>
              simp only [upper, sparse_leq_iff_valueAt, SortedMap.valueAt_combine] at covered ⊢
              exact fun key => CumulativeDomain.join_leq_join _ (covered key)

instance : CumulativeDomain (Partition K V) where
  isBottom_iff := isEmpty_iff
  bottom_leq partition := by cases partition <;> rfl
  leq_refl := leq_refl_of_cumulative
  leq_trans := leq_trans_of_cumulative
  join_bottom := upper_join_empty
  join_comm := upper_join_comm
  join_assoc := upper_join_assoc
  join_leq_join := upper_join_leq_upper_join

end Partition

end Partitions

/-! ## Taint and points-to sets -/

theorem Domain.Embedding.byParts {W P : Type} [Domain W] [Domain P] {embed : W → P}
    (embedding : Embedding embed) (injective : Function.Injective embed) : ByParts embed where
  injective := injective
  bottom := embedding.bottom
  isBottom value := (embedding.isBottom value).symm
  leq left right := (embedding.leq left right).symm
  join := embedding.join

instance : CumulativeDomain (Taint heuristics) :=
  (Taint.embedding_frames.byParts fun _ _ same => congrArg Taint.mk same).cumulative

instance : CumulativeDomain (PointsToSet heuristics) :=
  (PointsToSet.embedding_targets.byParts fun _ _ same => congrArg PointsToSet.mk same).cumulative

end AliasTaint
