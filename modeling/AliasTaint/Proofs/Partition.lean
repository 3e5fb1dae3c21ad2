import AliasTaint.Partition
import AliasTaint.Proofs.Entries
import AliasTaint.Proofs.Ideal
import Mathlib.Data.List.Basic

/-!
# Partitions as a lattice

A well-formed partition binds no key to bottom, and all bound values are well-formed.  A sparse
partition is then determined by the value it gives to each key, bottom where the key is not bound, and
the order, the joins and the meets are those of the values, key by key.
-/

namespace AliasTaint

open Domain

variable {K V : Type} [Ord K] [DecidableEq K] [Domain V]

theorem Domain.nonBottom?_eq_some {value kept : V} (found : nonBottom? value = some kept) :
    kept = value ∧ isBottom value = false := by
  unfold nonBottom? at found
  cases isNothing : isBottom value <;> simp_all

/-- A join covers both sides, so it is above bottom if one of them is. -/
theorem SemilatticeOn.filled_join {Good : V → Prop} [SemilatticeOn Good] {first second : V}
    (firstFilled : isBottom first = false) (_ : isBottom second = false)
    (goodFirst : Good first) (goodSecond : Good second) :
    isBottom (join first second) = false ∧ Good (join first second) := by
  have goodJoin := JoinClosed.join goodFirst goodSecond
  refine ⟨?_, goodJoin⟩
  cases isNothing : isBottom (join first second) with
  | false =>
      rfl
  | true =>
      have covered := (SemilatticeOn.leq_joins goodFirst goodSecond).1
      rw [SemilatticeOn.isBottom_of_leq goodFirst goodJoin covered isNothing] at firstFilled
      exact firstFilled

/-! ## Values of keys -/

namespace SortedMap

/-- The value of a key, bottom if it is not bound. -/
def valueAt (map : SortedMap K V) (key : K) : V :=
  (map.get? key).getD bottom

/-- No key is bound to bottom, and all bound values are well-formed. -/
def Stores (Good : V → Prop) (map : SortedMap K V) : Prop :=
  ∀ entry ∈ map.entries, isBottom entry.2 = false ∧ Good entry.2

variable [Std.LawfulEqOrd K] {Good : V → Prop} {map left right : SortedMap K V}

omit [Std.LawfulEqOrd K] in
theorem valueAt_of_get? {key : K} {value : V} (found : map.get? key = some value) :
    map.valueAt key = value := by
  rw [valueAt, found]
  rfl

omit [Std.LawfulEqOrd K] in
theorem Stores.get? (stores : map.Stores Good) {key : K} {value : V}
    (found : map.get? key = some value) : isBottom value = false ∧ Good value :=
  stores (key, value) (Entries.mem_of_lookup found)

theorem stores_of_get?
    (bound : ∀ key value, map.get? key = some value → isBottom value = false ∧ Good value) :
    map.Stores Good := by
  rintro ⟨key, value⟩ member
  exact bound key value (map.increasing.lookup_eq_some_iff.mpr member)

omit [Std.LawfulEqOrd K] in
theorem Stores.valueAt [SemilatticeOn Good] (stores : map.Stores Good) (key : K) :
    Good (map.valueAt key) := by
  unfold SortedMap.valueAt
  cases found : map.get? key with
  | none =>
      exact JoinClosed.bottom
  | some value =>
      exact (stores.get? found).2

omit [Std.LawfulEqOrd K] in
/-- What a key is bound to can be told from its value. -/
theorem Stores.get?_eq [SemilatticeOn Good] (stores : map.Stores Good) (key : K) :
    map.get? key = nonBottom? (map.valueAt key) := by
  unfold SortedMap.valueAt
  cases found : map.get? key with
  | none =>
      have isNothing : isBottom (Domain.bottom : V) :=
        (SemilatticeOn.isBottom_iff (JoinClosed.bottom : Good Domain.bottom)).mpr rfl
      simp [nonBottom?, isNothing]
  | some value =>
      simp [nonBottom?, (stores.get? found).1]

theorem Stores.ext [Std.TransOrd K] [SemilatticeOn Good]
    (leftStores : left.Stores Good) (rightStores : right.Stores Good)
    (sameValues : ∀ key, left.valueAt key = right.valueAt key) :
    left = right := by
  apply ext_entries
  refine left.increasing.eq_of_lookup_eq right.increasing fun key => ?_
  have sameBinding : left.get? key = right.get? key := by
    rw [leftStores.get?_eq, rightStores.get?_eq, sameValues key]
  exact sameBinding

/-! ## Combined maps -/

omit [Domain V] in
theorem get?_combine [Std.TransOrd K] (both : V → V → V) (key : K) :
    (left.combine both right).get? key =
      match left.get? key, right.get? key with
      | some value, some other => some (both value other)
      | some value, none => some value
      | none, found => found :=
  left.increasing.lookup_combine right.increasing both key

theorem Stores.valueAt_combine [Std.TransOrd K] [SemilatticeOn Good]
    (leftStores : left.Stores Good) (rightStores : right.Stores Good) (key : K) :
    (left.combine join right).valueAt key = join (left.valueAt key) (right.valueAt key) := by
  simp only [SortedMap.valueAt, get?_combine]
  cases leftFound : left.get? key with
  | none =>
      exact (SemilatticeOn.bottom_join (rightStores.valueAt key)).symm
  | some value =>
      cases rightFound : right.get? key with
      | none =>
          exact (SemilatticeOn.join_bottom (leftStores.get? leftFound).2).symm
      | some other =>
          rfl

theorem Stores.combine_of_filled [Std.TransOrd K] {both : V → V → V}
    (keeps : ∀ {first second : V}, isBottom first = false → isBottom second = false →
      Good first → Good second → isBottom (both first second) = false ∧ Good (both first second))
    (leftStores : left.Stores Good) (rightStores : right.Stores Good) :
    (left.combine both right).Stores Good := by
  apply stores_of_get?
  intro key value found
  rw [get?_combine] at found
  cases leftFound : left.get? key with
  | none =>
      rw [leftFound] at found
      exact rightStores.get? found
  | some first =>
      obtain ⟨firstFilled, goodFirst⟩ := leftStores.get? leftFound
      cases rightFound : right.get? key with
      | none =>
          rw [leftFound, rightFound] at found
          cases found
          exact ⟨firstFilled, goodFirst⟩
      | some second =>
          obtain ⟨secondFilled, goodSecond⟩ := rightStores.get? rightFound
          rw [leftFound, rightFound] at found
          cases found
          exact keeps firstFilled secondFilled goodFirst goodSecond

theorem Stores.combine [Std.TransOrd K] [SemilatticeOn Good]
    (leftStores : left.Stores Good) (rightStores : right.Stores Good) :
    (left.combine join right).Stores Good :=
  leftStores.combine_of_filled SemilatticeOn.filled_join rightStores

/-- What two maps have in common, key by key. -/
def common (both : V → V → V) (left right : SortedMap K V) : SortedMap K V :=
  left.filterMapValues fun key value =>
    (right.get? key).bind fun other => nonBottom? (both value other)

theorem get?_common (both : V → V → V) (key : K) :
    (left.common both right).get? key =
      (left.get? key).bind fun value =>
        (right.get? key).bind fun other => nonBottom? (both value other) :=
  left.increasing.lookup_filterMapValues
    (fun other value =>
      (right.get? other).bind fun found => nonBottom? (both value found)) key

theorem Stores.valueAt_common_of_bottom {both : V → V → V}
    (bottom_both : ∀ {value : V}, Good value → both bottom value = bottom)
    (both_bottom : ∀ {value : V}, Good value → both value bottom = bottom)
    (eq_bottom : ∀ {value other : V}, Good value → Good other →
      isBottom (both value other) → both value other = bottom)
    (goodBottom : Good bottom)
    (leftStores : left.Stores Good) (rightStores : right.Stores Good) (key : K) :
    (left.common both right).valueAt key = both (left.valueAt key) (right.valueAt key) := by
  simp only [SortedMap.valueAt, get?_common]
  cases leftFound : left.get? key with
  | none =>
      cases rightFound : right.get? key with
      | none =>
          exact (bottom_both goodBottom).symm
      | some other =>
          exact (bottom_both (rightStores.get? rightFound).2).symm
  | some value =>
      obtain ⟨_, goodValue⟩ := leftStores.get? leftFound
      cases rightFound : right.get? key with
      | none =>
          exact (both_bottom goodValue).symm
      | some other =>
          obtain ⟨_, goodOther⟩ := rightStores.get? rightFound
          simp only [Option.bind_some, nonBottom?, Option.getD_some]
          split
          · rename_i isNothing
            exact (eq_bottom goodValue goodOther isNothing).symm
          · rfl

theorem Stores.valueAt_common [LatticeOn Good]
    (leftStores : left.Stores Good) (rightStores : right.Stores Good) (key : K) :
    (left.common meet right).valueAt key = meet (left.valueAt key) (right.valueAt key) :=
  leftStores.valueAt_common_of_bottom LatticeOn.bottom_meet LatticeOn.meet_bottom
    (fun goodValue goodOther =>
      (SemilatticeOn.isBottom_iff (LatticeOn.meet goodValue goodOther)).mp)
    JoinClosed.bottom rightStores key

theorem Stores.common_of_good {both : V → V → V}
    (keepsGood : ∀ {first second : V}, Good first → Good second → Good (both first second))
    (leftStores : left.Stores Good) (rightStores : right.Stores Good) :
    (left.common both right).Stores Good := by
  apply stores_of_get?
  intro key value found
  rw [get?_common] at found
  obtain ⟨first, leftFound, found⟩ := Option.bind_eq_some_iff.mp found
  obtain ⟨second, rightFound, found⟩ := Option.bind_eq_some_iff.mp found
  obtain ⟨rfl, filled⟩ := nonBottom?_eq_some found
  exact ⟨filled, keepsGood (leftStores.get? leftFound).2 (rightStores.get? rightFound).2⟩

theorem Stores.common [LatticeOn Good]
    (leftStores : left.Stores Good) (rightStores : right.Stores Good) :
    (left.common meet right).Stores Good :=
  leftStores.common_of_good LatticeOn.meet rightStores

/-! ## Changed maps -/

/-- The map with every value changed, and without the values that become bottom. -/
def changed (change : V → V) (map : SortedMap K V) : SortedMap K V :=
  map.filterMapValues fun _ value => nonBottom? (change value)

theorem get?_changed (change : V → V) (key : K) :
    (map.changed change).get? key = (map.get? key).bind fun value => nonBottom? (change value) :=
  map.increasing.lookup_filterMapValues (fun _ value => nonBottom? (change value)) key

variable {After : V → Prop} {change : V → V}

theorem Stores.valueAt_changed [SemilatticeOn After]
    (stores : map.Stores Good) (keeps : JoinMapOn Good After change) (key : K) :
    (map.changed change).valueAt key = change (map.valueAt key) := by
  simp only [SortedMap.valueAt, get?_changed]
  cases found : map.get? key with
  | none =>
      exact keeps.bottom.symm
  | some value =>
      have goodAfter := keeps.good (stores.get? found).2
      simp only [Option.bind_some, nonBottom?, Option.getD_some]
      split
      · rename_i isNothing
        exact ((SemilatticeOn.isBottom_iff goodAfter).mp isNothing).symm
      · rfl

theorem Stores.changed_of_good
    (stores : map.Stores Good) (keepsGood : ∀ value, Good value → After (change value)) :
    (map.changed change).Stores After := by
  apply stores_of_get?
  intro key value found
  rw [get?_changed] at found
  obtain ⟨original, originalFound, found⟩ := Option.bind_eq_some_iff.mp found
  obtain ⟨rfl, filled⟩ := nonBottom?_eq_some found
  exact ⟨filled, keepsGood original (stores.get? originalFound).2⟩

theorem Stores.changed
    (stores : map.Stores Good) (keeps : JoinMapOn Good After change) :
    (map.changed change).Stores After :=
  stores.changed_of_good fun _ => keeps.good

end SortedMap

/-! ## Partitions -/

namespace Partition

/-- No key is bound to bottom, and all bound values are well-formed. -/
def WellFormed (Good : V → Prop) : Partition K V → Prop
  | .top => True
  | .sparse map => map.Stores Good

instance (Good : V → Prop) [DecidablePred Good] :
    DecidablePred (WellFormed (K := K) Good)
  | .top => isTrue trivial
  | .sparse map =>
      inferInstanceAs (Decidable (∀ entry ∈ map.entries, isBottom entry.2 = false ∧ Good entry.2))

omit [DecidableEq K] in
theorem WellFormed.imp {Good After : V → Prop} (implied : ∀ value, Good value → After value)
    {partition : Partition K V} (formed : partition.WellFormed Good) :
    partition.WellFormed After := by
  cases partition with
  | top =>
      exact trivial
  | sparse map =>
      intro entry member
      exact (formed entry member).imp_right (implied entry.2)

omit [DecidableEq K] in
theorem WellFormed.bound {Good : V → Prop} {partition : Partition K V}
    (formed : partition.WellFormed Good) :
    ∀ entry ∈ partition.bindings, isBottom entry.2 = false ∧ Good entry.2 := by
  intro entry member
  cases partition with
  | top =>
      exact nomatch member
  | sparse map =>
      exact formed entry member

omit [DecidableEq K] in
theorem WellFormed.filled {Good : V → Prop} {partition : Partition K V}
    (formed : partition.WellFormed Good) :
    ∀ entry ∈ partition.bindings, isBottom entry.2 = false :=
  fun entry member => (formed.bound entry member).1

/-- A partition that binds no key to bottom is covered by bottom only if it binds no key. -/
theorem WellFormed.eq_empty_of_leq {Good : V → Prop} {partition : Partition K V}
    (formed : partition.WellFormed Good) (covered : leq partition empty) : partition = empty := by
  cases partition with
  | top =>
      exact nomatch covered
  | sparse map =>
      have unbound (entry : K × V) (member : entry ∈ map.entries) : False := by
        have isNothing : isBottom entry.2 := List.all_eq_true.mp covered entry member
        rw [(formed entry member).1] at isNothing
        exact nomatch isNothing
      exact congrArg sparse
        (SortedMap.ext_entries (List.eq_nil_iff_forall_not_mem.mpr unbound))

omit [DecidableEq K] [Domain V] in
theorem bindings_of_isTop {partition : Partition K V} (unlimited : partition.isTop) :
    partition.bindings = [] := by
  cases partition with
  | top =>
      rfl
  | sparse map =>
      exact nomatch unlimited

variable [Std.LawfulEqOrd K] {Good : V → Prop}

theorem wellFormed_upper_of_filled [Std.TransOrd K] {both : V → V → V}
    (keeps : ∀ {first second : V}, isBottom first = false → isBottom second = false →
      Good first → Good second → isBottom (both first second) = false ∧ Good (both first second))
    {left right : Partition K V}
    (leftFormed : left.WellFormed Good) (rightFormed : right.WellFormed Good) :
    (upper both left right).WellFormed Good := by
  cases left with
  | top =>
      exact trivial
  | sparse left =>
      cases right with
      | top =>
          exact trivial
      | sparse right =>
          exact SortedMap.Stores.combine_of_filled keeps leftFormed rightFormed

theorem wellFormed_lower_of_good {both : V → V → V}
    (keepsGood : ∀ {first second : V}, Good first → Good second → Good (both first second))
    {left right : Partition K V}
    (leftFormed : left.WellFormed Good) (rightFormed : right.WellFormed Good) :
    (lower both left right).WellFormed Good := by
  cases right with
  | top =>
      exact leftFormed
  | sparse right =>
      cases left with
      | top =>
          exact rightFormed
      | sparse left =>
          exact SortedMap.Stores.common_of_good keepsGood leftFormed rightFormed

/-- Operations that do not lead out of a kind of values, and cover what they join, do not lead out of
the partitions of such values. -/
theorem closedDomain_wellFormed [Std.TransOrd K] [ClosedDomain Good]
    (filled_join : ∀ {first second : V}, Good first → Good second →
      isBottom first = false → isBottom second = false → isBottom (join first second) = false)
    (filled_widen : ∀ {first second : V}, Good first → Good second →
      isBottom first = false → isBottom second = false → isBottom (widen first second) = false) :
    ClosedDomain (WellFormed (K := K) Good) where
  bottom := nofun
  join leftFormed rightFormed := by
    refine wellFormed_upper_of_filled ?_ leftFormed rightFormed
    intro first second filled otherFilled good goodOther
    exact ⟨filled_join good goodOther filled otherFilled, ClosedDomain.join good goodOther⟩
  widen leftFormed rightFormed := by
    refine wellFormed_upper_of_filled ?_ leftFormed rightFormed
    intro first second filled otherFilled good goodOther
    exact ⟨filled_widen good goodOther filled otherFilled, ClosedDomain.widen good goodOther⟩
  meet := wellFormed_lower_of_good ClosedDomain.meet
  narrow := wellFormed_lower_of_good ClosedDomain.narrow

omit [Std.LawfulEqOrd K] in
/-- Sparse partitions are compared at the keys that the left one binds. -/
theorem sparse_leq_sparse_iff_elim {left right : SortedMap K V} :
    leq (.sparse left) (.sparse right) ↔ ∀ entry ∈ left.entries,
      (right.get? entry.1).elim (isBottom entry.2) (Domain.leq entry.2) = true := by
  rw [leq, List.all_eq_true]
  refine forall₂_congr fun entry _ => ?_
  cases right.get? entry.1 with
  | none =>
      exact Iff.rfl
  | some other =>
      exact Iff.rfl

section Joins

variable [SemilatticeOn Good] {left right : SortedMap K V}

theorem sparse_leq_sparse_iff
    (leftStores : left.Stores Good) (rightStores : right.Stores Good) :
    leq (.sparse left) (.sparse right) ↔
      ∀ key, Domain.leq (left.valueAt key) (right.valueAt key) := by
  have covers_iff {key : K} {value : V} (good : Good value) :
      (right.get? key).elim (isBottom value) (Domain.leq value) = true ↔
        Domain.leq value (right.valueAt key) := by
    unfold SortedMap.valueAt
    cases right.get? key with
    | some other =>
        exact Iff.rfl
    | none =>
        refine (SemilatticeOn.isBottom_iff good).trans ⟨?_, SemilatticeOn.eq_bottom_of_leq good⟩
        intro isNothing
        rw [isNothing]
        exact SemilatticeOn.bottom_leq (JoinClosed.bottom : Good Domain.bottom)
  rw [sparse_leq_sparse_iff_elim]
  constructor
  · intro covered key
    cases found : left.get? key with
    | none =>
        have isNothing : left.valueAt key = Domain.bottom := by
          rw [SortedMap.valueAt, found]
          rfl
        rw [isNothing]
        exact SemilatticeOn.bottom_leq (rightStores.valueAt key)
    | some value =>
        rw [SortedMap.valueAt_of_get? found]
        exact (covers_iff (leftStores.get? found).2).mp
          (covered (key, value) (Entries.mem_of_lookup found))
  · rintro covered ⟨key, value⟩ member
    have found : left.get? key = some value := left.increasing.lookup_eq_some_iff.mpr member
    have below := covered key
    rw [SortedMap.valueAt_of_get? found] at below
    exact (covers_iff (leftStores.get? found).2).mpr below

omit [DecidableEq K] [Domain V] [Std.LawfulEqOrd K] in
theorem isEmpty_iff {partition : Partition K V} : partition.isEmpty ↔ partition = .empty := by
  cases partition with
  | top =>
      exact iff_of_false nofun nofun
  | sparse map =>
      constructor
      · intro isNothing
        exact congrArg sparse (SortedMap.ext_entries (List.isEmpty_iff.mp isNothing))
      · intro isNothing
        rw [isNothing]
        rfl

omit [Std.LawfulEqOrd K] in
theorem leq_top (partition : Partition K V) : leq partition .top := by
  cases partition <;> rfl

theorem leq_antisymm_of_values [Std.TransOrd K] {left right : Partition K V}
    (leftFormed : left.WellFormed Good) (rightFormed : right.WellFormed Good)
    (leftCovered : leq left right) (rightCovered : leq right left) :
    left = right := by
  cases left with
  | top =>
      cases right with
      | top =>
          rfl
      | sparse right =>
          exact nomatch leftCovered
  | sparse left =>
      cases right with
      | top =>
          exact nomatch rightCovered
      | sparse right =>
          rw [sparse_leq_sparse_iff leftFormed rightFormed] at leftCovered
          rw [sparse_leq_sparse_iff rightFormed leftFormed] at rightCovered
          refine congrArg sparse (SortedMap.Stores.ext leftFormed rightFormed fun key => ?_)
          exact SemilatticeOn.leq_antisymm (leftFormed.valueAt key) (rightFormed.valueAt key)
            (leftCovered key) (rightCovered key)

theorem leq_trans_of_values {first second third : Partition K V}
    (firstFormed : first.WellFormed Good) (secondFormed : second.WellFormed Good)
    (thirdFormed : third.WellFormed Good)
    (firstCovered : leq first second) (secondCovered : leq second third) :
    leq first third := by
  cases third with
  | top =>
      exact leq_top first
  | sparse third =>
      cases second with
      | top =>
          exact nomatch secondCovered
      | sparse second =>
          cases first with
          | top =>
              exact nomatch firstCovered
          | sparse first =>
              rw [sparse_leq_sparse_iff firstFormed secondFormed] at firstCovered
              rw [sparse_leq_sparse_iff secondFormed thirdFormed] at secondCovered
              rw [sparse_leq_sparse_iff firstFormed thirdFormed]
              intro key
              exact SemilatticeOn.leq_trans (firstFormed.valueAt key) (secondFormed.valueAt key)
                (thirdFormed.valueAt key) (firstCovered key) (secondCovered key)

/-! ## Joins and meets -/

theorem upper_join_leq_iff [Std.TransOrd K] {left right upper : Partition K V}
    (leftFormed : left.WellFormed Good) (rightFormed : right.WellFormed Good)
    (upperFormed : upper.WellFormed Good) :
    leq (Partition.upper join left right) upper ↔ leq left upper ∧ leq right upper := by
  cases upper with
  | top =>
      simp [leq_top]
  | sparse upper =>
      cases left with
      | top =>
          simp [Partition.upper, leq]
      | sparse left =>
          cases right with
          | top =>
              simp [Partition.upper, leq]
          | sparse right =>
              rw [Partition.upper,
                sparse_leq_sparse_iff (SortedMap.Stores.combine leftFormed rightFormed) upperFormed,
                sparse_leq_sparse_iff leftFormed upperFormed,
                sparse_leq_sparse_iff rightFormed upperFormed, ← forall_and]
              refine forall_congr' fun key => ?_
              rw [SortedMap.Stores.valueAt_combine leftFormed rightFormed]
              exact SemilatticeOn.join_leq_iff (leftFormed.valueAt key) (rightFormed.valueAt key)
                (upperFormed.valueAt key)

theorem wellFormed_upper [Std.TransOrd K] {left right : Partition K V}
    (leftFormed : left.WellFormed Good) (rightFormed : right.WellFormed Good) :
    (Partition.upper join left right).WellFormed Good :=
  wellFormed_upper_of_filled SemilatticeOn.filled_join leftFormed rightFormed

instance [Std.TransOrd K] : SemilatticeOn (WellFormed (K := K) Good) where
  bottom := nofun
  join := wellFormed_upper
  bottom_leq {value} _ := by
    cases value <;> rfl
  isBottom_iff _ := isEmpty_iff
  leq_refl {value} formed := by
    cases value with
    | top =>
        rfl
    | sparse map =>
        refine (sparse_leq_sparse_iff formed formed).mpr fun key => ?_
        exact SemilatticeOn.leq_refl (SortedMap.Stores.valueAt formed key)
  leq_trans := leq_trans_of_values
  leq_antisymm := leq_antisymm_of_values
  join_leq_iff := upper_join_leq_iff

end Joins

section Meets

variable [LatticeOn Good]

theorem leq_lower_meet_iff {left right lower : Partition K V}
    (leftFormed : left.WellFormed Good) (rightFormed : right.WellFormed Good)
    (lowerFormed : lower.WellFormed Good) :
    leq lower (Partition.lower meet left right) ↔ leq lower left ∧ leq lower right := by
  cases right with
  | top =>
      simp [Partition.lower, leq_top]
  | sparse right =>
      cases left with
      | top =>
          simp [Partition.lower, leq_top]
      | sparse left =>
          cases lower with
          | top =>
              simp [Partition.lower, leq]
          | sparse lower =>
              have meetFormed := SortedMap.Stores.common leftFormed rightFormed
              refine (sparse_leq_sparse_iff lowerFormed meetFormed).trans ?_
              rw [sparse_leq_sparse_iff lowerFormed leftFormed,
                sparse_leq_sparse_iff lowerFormed rightFormed, ← forall_and]
              refine forall_congr' fun key => ?_
              rw [SortedMap.Stores.valueAt_common leftFormed rightFormed]
              exact LatticeOn.leq_meet_iff (leftFormed.valueAt key) (rightFormed.valueAt key)
                (lowerFormed.valueAt key)

theorem wellFormed_lower {left right : Partition K V}
    (leftFormed : left.WellFormed Good) (rightFormed : right.WellFormed Good) :
    (Partition.lower meet left right).WellFormed Good :=
  wellFormed_lower_of_good LatticeOn.meet leftFormed rightFormed

instance [Std.TransOrd K] : LatticeOn (WellFormed (K := K) Good) where
  meet := wellFormed_lower
  widen_eq left right := by
    have sameWiden : (widen : V → V → V) = join :=
      funext fun value => funext fun other => LatticeOn.widen_eq Good value other
    exact congrArg (fun both => Partition.upper both left right) sameWiden
  narrow_eq left right := by
    have sameNarrow : (narrow : V → V → V) = meet :=
      funext fun value => funext fun other => LatticeOn.narrow_eq Good value other
    exact congrArg (fun both => Partition.lower both left right) sameNarrow
  leq_meet_iff := leq_lower_meet_iff

end Meets

/-! ## Changes of values -/

section Changes

variable {After : V → Prop} {change further : V → V}

theorem wellFormed_transform {partition : Partition K V}
    (formed : partition.WellFormed Good)
    (keepsGood : ∀ value, Good value → After (change value)) :
    (partition.transform change).WellFormed After := by
  cases partition with
  | top =>
      exact trivial
  | sparse map =>
      exact SortedMap.Stores.changed_of_good formed keepsGood

omit [DecidableEq K] [Std.LawfulEqOrd K] in
theorem isTop_transform (partition : Partition K V) (change : V → V) :
    (partition.transform change).isTop = partition.isTop := by
  cases partition <;> rfl

omit [DecidableEq K] [Std.LawfulEqOrd K] in
theorem keys_transform {partition : Partition K V} (formed : partition.WellFormed Good)
    (filled : ∀ value, Good value → isBottom value = false → isBottom (change value) = false) :
    (partition.transform change).keys = partition.keys := by
  cases partition with
  | top =>
      rfl
  | sparse map =>
      have sameKey (entry : K × V) (member : entry ∈ map.entries) :
          ((nonBottom? (change entry.2)).map fun value => (entry.1, value)).map Prod.fst =
            some entry.1 := by
        obtain ⟨valueFilled, good⟩ := formed entry member
        simp [nonBottom?, filled entry.2 good valueFilled]
      exact List.map_filterMap.trans (List.filterMap_eq_map_iff_forall_eq_some.mpr sameKey)

/-- A change leaves a partition as it is if it leaves all bound values. -/
theorem transform_eq_self_iff [Std.TransOrd K] {partition : Partition K V}
    (formed : partition.WellFormed Good) :
    partition.transform change = partition ↔
      ∀ binding ∈ partition.bindings, change binding.2 = binding.2 := by
  cases partition with
  | top =>
      exact iff_of_true rfl nofun
  | sparse map =>
      have changedBinding (key : K) : (map.changed change).get? key = _ :=
        SortedMap.get?_changed change key
      constructor
      · rintro unchanged ⟨key, value⟩ member
        have found : map.get? key = some value := map.increasing.lookup_eq_some_iff.mpr member
        have same : map.changed change = map := sparse.inj unchanged
        have kept := changedBinding key
        rw [same, found, Option.bind_some] at kept
        exact (nonBottom?_eq_some kept.symm).1.symm
      · intro unchanged
        have changedIncreasing := (map.changed change).increasing
        refine congrArg sparse (SortedMap.ext_entries
          (changedIncreasing.eq_of_lookup_eq map.increasing fun key => ?_))
        refine (changedBinding key).trans ?_
        change (map.get? key).bind _ = map.get? key
        cases found : map.get? key with
        | none =>
            rfl
        | some value =>
            have filled := (SortedMap.Stores.get? formed found).1
            have same := unchanged (key, value) (Entries.mem_of_lookup found)
            rw [Option.bind_some, nonBottom?, same, filled]
            rfl

theorem wellFormed_set [Std.TransOrd K] {partition : Partition K V}
    (formed : partition.WellFormed Good) (key : K) {value : V} (good : Good value) :
    (partition.set key value).WellFormed Good := by
  cases partition with
  | top =>
      exact trivial
  | sparse map =>
      simp only [Partition.set]
      split
      · intro entry member
        exact formed entry (List.mem_filter.mp member).1
      · rename_i kept found
        obtain ⟨rfl, filled⟩ := nonBottom?_eq_some found
        intro entry member
        rcases Entries.eq_or_mem_of_mem_insert member with rfl | isOld
        · exact ⟨filled, good⟩
        · exact formed entry isOld

omit [Std.LawfulEqOrd K] in
theorem WellFormed.binding? {partition : Partition K V} (formed : partition.WellFormed Good)
    (goodBottom : Good bottom) (key : K) : Good ((partition.binding? key).getD bottom) := by
  cases partition with
  | top =>
      exact goodBottom
  | sparse map =>
      cases found : map.get? key with
      | none =>
          rw [Partition.binding?, found]
          exact goodBottom
      | some value =>
          rw [Partition.binding?, found]
          exact (SortedMap.Stores.get? formed found).2

theorem wellFormed_update [Std.TransOrd K] {partition : Partition K V}
    (formed : partition.WellFormed Good) (goodBottom : Good bottom) (key : K)
    (keepsGood : ∀ value, Good value → Good (change value)) :
    (partition.update key change).WellFormed Good :=
  wellFormed_set formed key (keepsGood _ (formed.binding? goodBottom key))

theorem isTop_set [Std.TransOrd K] (partition : Partition K V) (key : K) (value : V) :
    (partition.set key value).isTop = partition.isTop := by
  cases partition with
  | top =>
      rfl
  | sparse map =>
      simp only [Partition.set]
      split <;> rfl

theorem binding?_sparse_set [Std.TransOrd K] (map : SortedMap K V) (changed key : K) (value : V) :
    ((sparse map).set changed value).binding? key =
      if key = changed then nonBottom? value else map.get? key := by
  simp only [Partition.set]
  split
  · rename_i dropped
    rw [dropped]
    exact Entries.lookup_erase changed key map.entries
  · rename_i kept isKept
    rw [isKept]
    exact Entries.lookup_insert changed key kept map.entries

variable [SemilatticeOn Good] [SemilatticeOn After]

/-- A change of values that keeps joins does so in a partition. -/
theorem joinMapOn_transform [Std.TransOrd K] (keeps : JoinMapOn Good After change) :
    JoinMapOn (WellFormed (K := K) Good) (WellFormed After)
      fun partition => partition.transform change where
  good formed := wellFormed_transform formed fun _ => keeps.good
  bottom := rfl
  join {left right} leftFormed rightFormed := by
    cases left with
    | top =>
        rfl
    | sparse left =>
        cases right with
        | top =>
            rfl
        | sparse right =>
            have joinedStores := SortedMap.Stores.combine leftFormed rightFormed
            have leftChanged := SortedMap.Stores.changed leftFormed keeps
            have rightChanged := SortedMap.Stores.changed rightFormed keeps
            have sameValues (key : K) :
                ((left.combine Domain.join right).changed change).valueAt key =
                  ((left.changed change).combine Domain.join (right.changed change)).valueAt key := by
              rw [joinedStores.valueAt_changed keeps, leftFormed.valueAt_combine rightFormed,
                leftChanged.valueAt_combine rightChanged, leftFormed.valueAt_changed keeps,
                rightFormed.valueAt_changed keeps]
              exact keeps.join (leftFormed.valueAt key) (rightFormed.valueAt key)
            exact congrArg sparse ((joinedStores.changed keeps).ext
              (leftChanged.combine rightChanged) sameValues)

omit [SemilatticeOn Good] in
theorem get_transform [HasTop V] (keeps : JoinMapOn Good After change)
    (unlimited : change HasTop.top = HasTop.top)
    {partition : Partition K V} (formed : partition.WellFormed Good) (key : K) :
    (partition.transform change).get key = change (partition.get key) := by
  cases partition with
  | top =>
      exact unlimited.symm
  | sparse map =>
      exact SortedMap.Stores.valueAt_changed formed keeps key

theorem transform_leq_transform
    (keeps : JoinMapOn Good After change) (furtherKeeps : JoinMapOn Good After further)
    (covered : ∀ value, Good value → Domain.leq (change value) (further value))
    {partition : Partition K V} (formed : partition.WellFormed Good) :
    leq (partition.transform change) (partition.transform further) := by
  cases partition with
  | top =>
      rfl
  | sparse map =>
      have changedStores := SortedMap.Stores.changed formed keeps
      have furtherStores := SortedMap.Stores.changed formed furtherKeeps
      refine (sparse_leq_sparse_iff changedStores furtherStores).mpr fun key => ?_
      rw [SortedMap.Stores.valueAt_changed formed keeps,
        SortedMap.Stores.valueAt_changed formed furtherKeeps]
      exact covered _ (SortedMap.Stores.valueAt formed key)

omit [SemilatticeOn After] in
theorem transform_eq_self [Std.TransOrd K]
    (unchanged : ∀ value, Good value → change value = value)
    {partition : Partition K V} (formed : partition.WellFormed Good) :
    partition.transform change = partition := by
  cases partition with
  | top =>
      rfl
  | sparse map =>
      have keeps := JoinMapOn.of_unchanged unchanged
      refine congrArg sparse ((SortedMap.Stores.changed formed keeps).ext formed fun key => ?_)
      rw [SortedMap.Stores.valueAt_changed formed keeps]
      exact unchanged _ (SortedMap.Stores.valueAt formed key)

omit [SemilatticeOn After] in
/-- Two changes one after the other are one change, if that is what they do to each value. -/
theorem transform_transform [Std.TransOrd K] {both : V → V}
    (keeps : JoinMapOn Good Good change) (furtherKeeps : JoinMapOn Good Good further)
    (bothKeep : JoinMapOn Good Good both)
    (same : ∀ value, Good value → further (change value) = both value)
    {partition : Partition K V} (formed : partition.WellFormed Good) :
    (partition.transform change).transform further = partition.transform both := by
  cases partition with
  | top =>
      rfl
  | sparse map =>
      have changedStores := SortedMap.Stores.changed formed keeps
      have bothStores := SortedMap.Stores.changed formed bothKeep
      have sameValues (key : K) :
          ((map.changed change).changed further).valueAt key = (map.changed both).valueAt key := by
        rw [changedStores.valueAt_changed furtherKeeps, formed.valueAt_changed keeps,
          formed.valueAt_changed bothKeep]
        exact same _ (formed.valueAt key)
      exact congrArg sparse ((changedStores.changed furtherKeeps).ext bothStores sameValues)

omit [SemilatticeOn After] in
theorem transform_comm [Std.TransOrd K]
    (keeps : JoinMapOn Good Good change) (furtherKeeps : JoinMapOn Good Good further)
    (commutes : ∀ value, Good value → further (change value) = change (further value))
    {partition : Partition K V} (formed : partition.WellFormed Good) :
    (partition.transform change).transform further =
      (partition.transform further).transform change := by
  have bothKeep := furtherKeeps.comp keeps
  rw [transform_transform keeps furtherKeeps bothKeep (fun _ _ => rfl) formed,
    transform_transform furtherKeeps keeps bothKeep (fun value good => (commutes value good).symm)
      formed]

end Changes

theorem ideal_get [Std.TransOrd K] [HasTop V] [SemilatticeOn Good] {Inside : V → Prop}
    (ideal : Ideal Good Inside) (unlimited : ¬ Inside HasTop.top) (key : K) :
    Ideal (WellFormed (K := K) Good) fun partition => Inside (partition.get key) where
  bottom := ideal.bottom
  join_iff {left right} leftFormed rightFormed := by
    cases left with
    | top =>
        exact iff_of_false unlimited fun both => unlimited both.1
    | sparse left =>
        cases right with
        | top =>
            exact iff_of_false unlimited fun both => unlimited both.2
        | sparse right =>
            have combined : (Domain.join (sparse left) (sparse right)).get key =
                Domain.join (left.valueAt key) (right.valueAt key) :=
              SortedMap.Stores.valueAt_combine leftFormed rightFormed key
            rw [combined]
            exact ideal.join_iff (SortedMap.Stores.valueAt leftFormed key)
              (SortedMap.Stores.valueAt rightFormed key)

/-! ## Keys without a value -/

/-- The partition gives no value to a key. -/
def Lacks (key : K) : Partition K V → Prop
  | .top => False
  | .sparse map => map.get? key = none

theorem ideal_lacks [Std.TransOrd K] (key : K) :
    Ideal (WellFormed (K := K) Good) (Lacks key) where
  bottom := rfl
  join_iff {left right} _ _ := by
    cases left with
    | top =>
        exact iff_of_false nofun fun both => both.1
    | sparse left =>
        cases right with
        | top =>
            exact iff_of_false nofun fun both => both.2
        | sparse right =>
            have combined : (left.combine Domain.join right).get? key = _ :=
              SortedMap.get?_combine Domain.join key
            simp only [Lacks]
            refine (Iff.of_eq (congrArg (· = none) combined)).trans ?_
            cases left.get? key <;> cases right.get? key <;> simp

theorem lacks_transform_iff {change : V → V}
    (filled : ∀ value, Good value → isBottom value = false → isBottom (change value) = false)
    {partition : Partition K V} (formed : partition.WellFormed Good) (key : K) :
    (partition.transform change).Lacks key ↔ partition.Lacks key := by
  cases partition with
  | top =>
      exact Iff.rfl
  | sparse map =>
      have changedBinding : (map.changed change).get? key = _ := SortedMap.get?_changed change key
      refine (Iff.of_eq (congrArg (· = none) changedBinding)).trans ?_
      simp only [Lacks]
      cases found : map.get? key with
      | none =>
          simp
      | some value =>
          obtain ⟨valueFilled, good⟩ := SortedMap.Stores.get? formed found
          simp [nonBottom?, filled value good valueFilled]

end Partition

/-! ## Covering both sides -/

namespace Partition

variable [Std.LawfulEqOrd K]

/-- A sparse partition is covered if each of its values is covered by a value of the same key. -/
theorem sparse_leq_of_get? {left right : SortedMap K V}
    (covered : ∀ key value, left.get? key = some value →
      ∃ other, right.get? key = some other ∧ Domain.leq value other) :
    leq (.sparse left) (.sparse right) := by
  rw [leq, List.all_eq_true]
  rintro ⟨key, value⟩ member
  have found : left.get? key = some value := left.increasing.lookup_eq_some_iff.mpr member
  obtain ⟨other, otherFound, valueCovered⟩ := covered key value found
  simp only [otherFound, valueCovered]

/-- Combining key by key covers both sides if combining two values does. -/
theorem leq_upper [Std.TransOrd K] {Good : V → Prop} {both : V → V → V}
    (reflexive : ∀ value, Good value → Domain.leq value value)
    (covers : ∀ value other, Good value → Good other →
      Domain.leq value (both value other) ∧ Domain.leq other (both value other))
    {left right : Partition K V} (leftGood : ∀ entry ∈ left.bindings, Good entry.2)
    (rightGood : ∀ entry ∈ right.bindings, Good entry.2) :
    leq left (upper both left right) ∧ leq right (upper both left right) := by
  cases left with
  | top =>
      exact ⟨leq_top _, leq_top _⟩
  | sparse leftMap =>
      cases right with
      | top =>
          exact ⟨leq_top _, leq_top _⟩
      | sparse rightMap =>
          have leftValue {key : K} {value : V} (found : leftMap.get? key = some value) : Good value :=
            leftGood (key, value) (Entries.mem_of_lookup found)
          have rightValue {key : K} {value : V} (found : rightMap.get? key = some value) :
              Good value :=
            rightGood (key, value) (Entries.mem_of_lookup found)
          constructor
          · refine sparse_leq_of_get? fun key value found => ?_
            rw [SortedMap.get?_combine, found]
            cases otherFound : rightMap.get? key with
            | none =>
                exact ⟨value, rfl, reflexive value (leftValue found)⟩
            | some other =>
                exact ⟨both value other, rfl,
                  (covers value other (leftValue found) (rightValue otherFound)).1⟩
          · refine sparse_leq_of_get? fun key value found => ?_
            rw [SortedMap.get?_combine, found]
            cases otherFound : leftMap.get? key with
            | none =>
                exact ⟨value, rfl, reflexive value (rightValue found)⟩
            | some other =>
                exact ⟨both other value, rfl,
                  (covers other value (leftValue otherFound) (rightValue found)).2⟩

end Partition

end AliasTaint
