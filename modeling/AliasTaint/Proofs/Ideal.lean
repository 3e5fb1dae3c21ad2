import AliasTaint.Proofs.LatticeOn

/-!
# Ideals of a domain

An ideal is a set of values that holds a join exactly if it holds both sides of the join.  The values
below a bound are an ideal, and so is the taint that lacks a kind.  To know of each ideal whether it
holds a value is to know the value, so an operation that gathers values by joins is described by
saying, for every ideal, which of the gathered values have to be inside.
-/

namespace AliasTaint

open Domain

variable {V : Type} [Domain V]

/-! ## Changes that keep joins -/

/-- A change of well-formed values that keeps bottom and joins. -/
structure JoinMapOn (Before After : V → Prop) (change : V → V) : Prop where
  good {value : V} : Before value → After (change value)
  bottom : change Domain.bottom = Domain.bottom
  join {left right : V} : Before left → Before right →
    change (join left right) = Domain.join (change left) (change right)

namespace JoinMapOn

variable {Before Between After : V → Prop} {change further : V → V}

theorem of_unchanged [SemilatticeOn Before]
    (unchanged : ∀ value, Before value → change value = value) :
    JoinMapOn Before Before change where
  good isGood := by
    rwa [unchanged _ isGood]
  bottom := unchanged _ JoinClosed.bottom
  join goodLeft goodRight := by
    rw [unchanged _ goodLeft, unchanged _ goodRight,
      unchanged _ (JoinClosed.join goodLeft goodRight)]

theorem comp
    (second : JoinMapOn Between After further)
    (first : JoinMapOn Before Between change) :
    JoinMapOn Before After fun value => further (change value) where
  good isGood := second.good (first.good isGood)
  bottom := by
    rw [first.bottom, second.bottom]
  join goodLeft goodRight := by
    rw [first.join goodLeft goodRight, second.join (first.good goodLeft) (first.good goodRight)]

theorem monotone [SemilatticeOn Before] [SemilatticeOn After]
    (keeps : JoinMapOn Before After change) {value upper : V}
    (good : Before value) (goodUpper : Before upper) (covered : leq value upper) :
    leq (change value) (change upper) := by
  have joined := SemilatticeOn.join_eq_of_leq good goodUpper covered
  have covers := (SemilatticeOn.leq_joins (keeps.good good) (keeps.good goodUpper)).1
  rwa [← keeps.join good goodUpper, joined] at covers

end JoinMapOn

/-! ## Changes of values with parts -/

namespace Domain.Smash

variable {W P : Type} [Domain W] [Domain P]

/-- A change of values that changes the parts of a value, and leaves none missing. -/
structure ChangesParts (GoodParts : P → Prop) (parts : W → P) (lacks : P → Bool)
    (change : W → W) (changeParts : P → P) : Prop where
  bottom : change bottom = bottom
  parts_change {value : W} : lacks (parts value) = false →
    parts (change value) = changeParts (parts value)
  full_change {pair : P} : GoodParts pair → lacks pair = false →
    GoodParts (changeParts pair) ∧ lacks (changeParts pair) = false

variable {Good : W → Prop} {GoodParts : P → Prop}
  {parts : W → P} {whole : P → W} {lacks : P → Bool}
  {change further : W → W} {changeParts furtherParts : P → P}

omit [Domain P] in
theorem ChangesParts.full (changes : ChangesParts GoodParts parts lacks change changeParts)
    {value : W} (goodParts : GoodParts (parts value)) (full : lacks (parts value) = false) :
    GoodParts (parts (change value)) ∧ lacks (parts (change value)) = false := by
  rw [changes.parts_change full]
  exact changes.full_change goodParts full

variable (smash : Smash Good GoodParts parts whole lacks)
  (changes : ChangesParts GoodParts parts lacks change changeParts)

include smash changes

theorem filled_change {value : W} (good : Good value) (filled : isBottom value = false) :
    isBottom (change value) = false := by
  rcases smash.good_iff.mp good with rfl | ⟨goodParts, full⟩
  · rw [smash.isBottom_bottom] at filled
    exact nomatch filled
  · exact smash.isBottom_of_full (changes.full goodParts full).2

theorem change_leq_change
    (furtherChanges : ChangesParts GoodParts parts lacks further furtherParts)
    (covered : ∀ pair, GoodParts pair → lacks pair = false →
      leq (changeParts pair) (furtherParts pair))
    {value : W} (good : Good value) :
    leq (change value) (further value) := by
  rcases smash.good_iff.mp good with rfl | ⟨goodParts, full⟩
  · rw [changes.bottom]
    exact smash.bottom_leq _
  · have changeFull := (changes.full goodParts full).2
    have furtherFull := (furtherChanges.full goodParts full).2
    rw [smash.leq_parts changeFull furtherFull, changes.parts_change full,
      furtherChanges.parts_change full]
    exact covered _ goodParts full

/-- If the changed parts keep joins, then so do the changed values. -/
theorem joinMapOn [SemilatticeOn GoodParts]
    (join_change : ∀ left right, GoodParts left → lacks left = false →
      GoodParts right → lacks right = false →
      changeParts (join left right) = join (changeParts left) (changeParts right)) :
    JoinMapOn Good Good change where
  good {value} good := by
    rcases smash.good_iff.mp good with rfl | ⟨goodParts, full⟩
    · rwa [changes.bottom]
    · exact smash.good_iff.mpr (Or.inr (changes.full goodParts full))
  bottom := changes.bottom
  join {left right} goodLeft goodRight := by
    rcases smash.good_iff.mp goodRight with rfl | ⟨rightParts, rightFull⟩
    · rw [changes.bottom, smash.join_bottom, smash.join_bottom]
    have rightChanged := (changes.full rightParts rightFull).2
    rcases smash.good_iff.mp goodLeft with rfl | ⟨leftParts, leftFull⟩
    · rw [changes.bottom, smash.bottom_join rightFull, smash.bottom_join rightChanged]
    have leftChanged := (changes.full leftParts leftFull).2
    have joinFull := (smash.full_join leftParts leftFull rightParts rightFull).2
    have sameParts :
        parts (change (join left right)) = parts (join (change left) (change right)) := by
      rw [changes.parts_change joinFull, smash.parts_join leftFull rightFull,
        smash.parts_join leftChanged rightChanged, changes.parts_change leftFull,
        changes.parts_change rightFull]
      exact join_change _ _ leftParts leftFull rightParts rightFull
    rw [← smash.whole_parts (change (join left right)), sameParts, smash.whole_parts]

end Domain.Smash

/-! ## Ideals -/

/-- A set of values that holds bottom, and a join exactly if it holds both sides. -/
structure Ideal (Good Inside : V → Prop) : Prop where
  bottom : Inside Domain.bottom
  join_iff {left right : V} : Good left → Good right →
    (Inside (join left right) ↔ Inside left ∧ Inside right)

namespace Ideal

variable {Good After Inside : V → Prop} {change : V → V}

theorem comap (ideal : Ideal After Inside) (keeps : JoinMapOn Good After change) :
    Ideal Good fun value => Inside (change value) where
  bottom := by
    rw [keeps.bottom]
    exact ideal.bottom
  join_iff goodLeft goodRight := by
    rw [keeps.join goodLeft goodRight]
    exact ideal.join_iff (keeps.good goodLeft) (keeps.good goodRight)

variable [SemilatticeOn Good]

theorem of_leq (ideal : Ideal Good Inside) {value upper : V}
    (good : Good value) (goodUpper : Good upper)
    (covered : leq value upper) (upperInside : Inside upper) :
    Inside value := by
  rw [← SemilatticeOn.join_eq_of_leq good goodUpper covered,
    ideal.join_iff good goodUpper] at upperInside
  exact upperInside.1

theorem of_isBottom (ideal : Ideal Good Inside) {value : V}
    (good : Good value) (isNothing : isBottom value) :
    Inside value := by
  rw [(SemilatticeOn.isBottom_iff good).mp isNothing]
  exact ideal.bottom

end Ideal

section Semilattice

variable {Good Inside : V → Prop} [SemilatticeOn Good]

theorem ideal_leq {upper : V} (goodUpper : Good upper) :
    Ideal Good fun value => leq value upper where
  bottom := SemilatticeOn.bottom_leq goodUpper
  join_iff goodLeft goodRight := SemilatticeOn.join_leq_iff goodLeft goodRight goodUpper

/-- Values that lie below the same bounds are the same. -/
theorem SemilatticeOn.eq_of_leq_iff {left right : V}
    (goodLeft : Good left) (goodRight : Good right)
    (sameBounds : ∀ upper, Good upper → (leq left upper ↔ leq right upper)) :
    left = right := by
  have leftCovered := (sameBounds right goodRight).mpr (leq_refl goodRight)
  have rightCovered := (sameBounds left goodLeft).mp (leq_refl goodLeft)
  exact leq_antisymm goodLeft goodRight leftCovered rightCovered

end Semilattice

/-! ## Joins of lists -/

/-- The join of all values of a list. -/
def Domain.joinAll (values : List V) : V :=
  values.foldr join bottom

section Lists

variable {Good Inside : V → Prop} [SemilatticeOn Good]

theorem good_joinAll {values : List V} (good : ∀ value ∈ values, Good value) :
    Good (joinAll values) := by
  induction values with
  | nil =>
      exact JoinClosed.bottom
  | cons value rest inductionHypothesis =>
      obtain ⟨goodValue, goodRest⟩ := List.forall_mem_cons.mp good
      exact JoinClosed.join goodValue (inductionHypothesis goodRest)

theorem Ideal.joinAll_iff (ideal : Ideal Good Inside) {values : List V}
    (good : ∀ value ∈ values, Good value) :
    Inside (joinAll values) ↔ ∀ value ∈ values, Inside value := by
  induction values with
  | nil =>
      exact iff_of_true ideal.bottom nofun
  | cons value rest inductionHypothesis =>
      obtain ⟨goodValue, goodRest⟩ := List.forall_mem_cons.mp good
      have joined : Inside (join value (joinAll rest)) ↔ _ :=
        ideal.join_iff goodValue (good_joinAll goodRest)
      rw [List.forall_mem_cons, ← inductionHypothesis goodRest]
      exact joined

end Lists

end AliasTaint
