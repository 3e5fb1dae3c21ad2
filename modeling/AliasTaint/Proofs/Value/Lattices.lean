import AliasTaint.Proofs.Value.WellFormed

/-!
# The value domains are lattices

The well-formed feature sets, position sets, frames, edge properties, taint and points-to sets are
each a lattice under the operations of their domain.  Bounds are least and greatest among the
well-formed values only: a frame without features, for instance, is no lower bound to compare with.
Where a domain has a top value, it is well-formed and the greatest one.
-/

namespace AliasTaint

open Domain

section Lattices

variable {V : Type} [Domain V]

/-- The order of a domain is a partial order of its well-formed values, and joins and meets are the
least upper and the greatest lower bounds in it. -/
structure IsLattice (Good : V → Prop) : Prop where
  leq_refl {value : V} : Good value → leq value value
  leq_trans {first second third : V} : Good first → Good second → Good third →
    leq first second → leq second third → leq first third
  /-- Values that cover each other are the same. -/
  equals_iff {left right : V} : Good left → Good right → (equals left right ↔ left = right)
  good_join {left right : V} : Good left → Good right → Good (join left right)
  leq_join {left right : V} : Good left → Good right →
    leq left (join left right) ∧ leq right (join left right)
  join_leq {left right upper : V} : Good left → Good right → Good upper →
    leq left upper → leq right upper → leq (join left right) upper
  good_meet {left right : V} : Good left → Good right → Good (meet left right)
  meet_leq {left right : V} : Good left → Good right →
    leq (meet left right) left ∧ leq (meet left right) right
  leq_meet {left right lower : V} : Good left → Good right → Good lower →
    leq lower left → leq lower right → leq lower (meet left right)

theorem LatticeOn.isLattice {Good : V → Prop} [LatticeOn Good] : IsLattice Good where
  leq_refl := SemilatticeOn.leq_refl
  leq_trans := SemilatticeOn.leq_trans
  equals_iff goodLeft goodRight := by
    constructor
    · intro same
      obtain ⟨leftCovered, rightCovered⟩ := Bool.and_eq_true_iff.mp same
      exact SemilatticeOn.leq_antisymm goodLeft goodRight leftCovered rightCovered
    · rintro rfl
      have covered := SemilatticeOn.leq_refl goodLeft
      exact Bool.and_eq_true_iff.mpr ⟨covered, covered⟩
  good_join := JoinClosed.join
  leq_join := SemilatticeOn.leq_joins
  join_leq goodLeft goodRight goodUpper leftCovered rightCovered :=
    (SemilatticeOn.join_leq_iff goodLeft goodRight goodUpper).mpr ⟨leftCovered, rightCovered⟩
  good_meet := LatticeOn.meet
  meet_leq := LatticeOn.meets_leq
  leq_meet goodLeft goodRight goodLower leftCovers rightCovers :=
    (LatticeOn.leq_meet_iff goodLeft goodRight goodLower).mpr ⟨leftCovers, rightCovers⟩

/-- The top value of a domain is well-formed, and greater than all well-formed values. -/
def TopIsGreatest [HasTop V] (Good : V → Prop) : Prop :=
  Good HasTop.top ∧ ∀ value, Good value → leq value HasTop.top

end Lattices

namespace TaintFrame

variable {heuristics : Heuristics}

theorem wellFormed_top : (top : TaintFrame heuristics).WellFormed :=
  Or.inr ⟨trivial, trivial, nofun, nofun⟩

theorem leq_top (frame : TaintFrame heuristics) : leq frame top := by
  unfold TaintFrame.leq
  split
  · rfl
  · exact Bool.and_eq_true_iff.mpr
      ⟨FeatureSet.leq_top frame.features, PositionSet.leq_widened frame.positions⟩

end TaintFrame

/-- All value domains are lattices of well-formed values, with the top values that exist.  Edge
properties have none. -/
theorem valueDomains_isLattice (heuristics : Heuristics) :
    IsLattice FeatureSet.WellFormed ∧
    IsLattice (@PositionSet.WellFormed heuristics) ∧
    IsLattice (@TaintFrame.WellFormed heuristics) ∧
    IsLattice (@EdgeProperties.WellFormed heuristics) ∧
    IsLattice (@Taint.WellFormed heuristics) ∧
    IsLattice (@PointsToSet.WellFormed heuristics) ∧
    TopIsGreatest FeatureSet.WellFormed ∧
    TopIsGreatest (@PositionSet.WellFormed heuristics) ∧
    TopIsGreatest (@TaintFrame.WellFormed heuristics) ∧
    TopIsGreatest (@Taint.WellFormed heuristics) ∧
    TopIsGreatest (@PointsToSet.WellFormed heuristics) := by
  refine ⟨LatticeOn.isLattice, LatticeOn.isLattice, LatticeOn.isLattice, LatticeOn.isLattice,
    LatticeOn.isLattice, LatticeOn.isLattice, ?features, ?positions, ?frames, ?taint, ?targets⟩
  case features => exact ⟨trivial, fun features _ => FeatureSet.leq_top features⟩
  case positions => exact ⟨trivial, fun positions _ => PositionSet.leq_widened positions⟩
  case frames => exact ⟨TaintFrame.wellFormed_top, fun frame _ => TaintFrame.leq_top frame⟩
  case taint => exact ⟨trivial, fun taint _ => Partition.leq_top taint.frames⟩
  case targets => exact ⟨trivial, fun set _ => Partition.leq_top set.targets⟩

end AliasTaint
