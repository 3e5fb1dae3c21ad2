import AliasTaint.PointsTo.Targets
import AliasTaint.Proofs.Partition
import AliasTaint.Proofs.Value.CollapseDepth
import AliasTaint.Proofs.Value.Features
import AliasTaint.Proofs.Value.Positions
import AliasTaint.Taint.Basic

/-!
# Well-formed values of the analysis

A well-formed frame is bottom, or its features and positions are both well-formed and above bottom;
the properties of an alias edge are bottom, or all three are well-formed and above bottom.  Both are
lattices that take their order from the parts.  Taint and points-to sets assign such values to kinds
and to locations, and are lattices key by key.
-/

namespace AliasTaint

open Domain

/-! ## Frames -/

namespace TaintFrame

variable {heuristics : Heuristics}

/-- A frame is bottom, or both parts are well-formed and above bottom. -/
def WellFormed (frame : TaintFrame heuristics) : Prop :=
  frame = .bottom ∨
    frame.features.WellFormed ∧ frame.positions.WellFormed ∧
      frame.features ≠ .bottom ∧ frame.positions ≠ .bottom

instance : DecidablePred (@WellFormed heuristics) := fun frame =>
  inferInstanceAs (Decidable (frame = .bottom ∨ _ ∧ _ ∧ _ ≠ _ ∧ _ ≠ _))

/-- The parts that a frame takes its order from. -/
def parts (frame : TaintFrame heuristics) : FeatureSet × PositionSet heuristics :=
  (frame.features, frame.positions)

/-- A frame is bottom, or both parts are above bottom, where the features may be of any kind. -/
def Whole (GoodFeatures : FeatureSet → Prop) (frame : TaintFrame heuristics) : Prop :=
  frame = .bottom ∨
    GoodFeatures frame.features ∧ frame.positions.WellFormed ∧
      frame.features ≠ .bottom ∧ frame.positions ≠ .bottom

theorem smash_whole (GoodFeatures : FeatureSet → Prop) [SemilatticeOn GoodFeatures] :
    Smash (@Whole heuristics GoodFeatures)
      (GoodPair GoodFeatures PositionSet.WellFormed)
      parts (fun pair => ⟨pair.1, pair.2⟩)
      (fun pair => pair.1.isBottom || pair.2.isBottom) where
  good_iff {frame} := by
    simp only [Whole, GoodPair, parts, Bool.eq_false_iff, Bool.or_eq_true, not_or, ne_eq,
      FeatureSet.isBottom_iff, PositionSet.isBottom_iff, and_assoc]
    exact Iff.rfl
  lacks_of_leq goodSmaller goodGreater covered lacking := by
    rw [Bool.or_eq_true] at lacking ⊢
    obtain ⟨featuresCovered, positionsCovered⟩ := pair_leq_iff.mp covered
    exact lacking.imp
      (SemilatticeOn.isBottom_of_leq goodSmaller.1 goodGreater.1 featuresCovered)
      (SemilatticeOn.isBottom_of_leq goodSmaller.2 goodGreater.2 positionsCovered)
  parts_whole _ := rfl
  whole_parts _ := rfl
  isBottom_bottom := rfl
  lacks_of_isBottom isNothing := by
    have noFeatures := (Bool.and_eq_true_iff.mp isNothing).1
    exact Bool.or_eq_true_iff.mpr (Or.inl noFeatures)
  leq_eq _ _ := rfl
  join_eq _ _ := rfl
  meet_eq _ _ := rfl
  widen_eq _ _ := rfl
  narrow_eq _ _ := rfl

theorem smash :
    Smash (@WellFormed heuristics)
      (GoodPair FeatureSet.WellFormed PositionSet.WellFormed)
      parts (fun pair => ⟨pair.1, pair.2⟩)
      (fun pair => pair.1.isBottom || pair.2.isBottom) :=
  smash_whole FeatureSet.WellFormed

instance (GoodFeatures : FeatureSet → Prop) [SemilatticeOn GoodFeatures] :
    SemilatticeOn (@Whole heuristics GoodFeatures) :=
  (smash_whole GoodFeatures).semilatticeOn

instance : LatticeOn (@WellFormed heuristics) :=
  smash.latticeOn

end TaintFrame

/-! ## Properties of alias edges -/

instance : LatticeOn fun _ : CollapseDepth => True :=
  latticeOn_true (fun _ _ => rfl) (fun _ _ => rfl)

namespace EdgeProperties

variable {heuristics : Heuristics}

/-- Edge properties are bottom, or all parts are well-formed and above bottom. -/
def WellFormed (edge : EdgeProperties heuristics) : Prop :=
  edge = .bottom ∨
    edge.positions.WellFormed ∧ edge.features.WellFormed ∧
      edge.positions ≠ .bottom ∧ edge.features ≠ .bottom ∧ edge.collapseDepth ≠ .bottom

instance : DecidablePred (@WellFormed heuristics) := fun edge =>
  inferInstanceAs (Decidable (edge = .bottom ∨ _ ∧ _ ∧ _ ≠ _ ∧ _ ≠ _ ∧ _ ≠ _))

/-- The parts that edge properties take their order from. -/
def parts (edge : EdgeProperties heuristics) :
    (PositionSet heuristics × FeatureSet) × CollapseDepth :=
  ((edge.positions, edge.features), edge.collapseDepth)

theorem smash :
    Smash (@WellFormed heuristics)
      (GoodPair (GoodPair PositionSet.WellFormed FeatureSet.WellFormed) fun _ => True)
      parts (fun triple => ⟨triple.1.1, triple.1.2, triple.2⟩)
      (fun triple =>
        triple.1.1.isBottom || triple.1.2.isBottom || Domain.isBottom triple.2) where
  good_iff {edge} := by
    simp only [WellFormed, GoodPair, parts, Bool.eq_false_iff, Bool.or_eq_true, not_or, ne_eq,
      PositionSet.isBottom_iff, FeatureSet.isBottom_iff, CollapseDepth.isBottom_iff,
      and_assoc, true_and]
    exact Iff.rfl
  lacks_of_leq goodSmaller goodGreater covered lacking := by
    simp only [Bool.or_eq_true] at lacking ⊢
    obtain ⟨pairCovered, depthCovered⟩ := pair_leq_iff.mp covered
    obtain ⟨positionsCovered, featuresCovered⟩ := pair_leq_iff.mp pairCovered
    refine lacking.imp (Or.imp ?_ ?_) ?_
    · exact SemilatticeOn.isBottom_of_leq goodSmaller.1.1 goodGreater.1.1 positionsCovered
    · exact SemilatticeOn.isBottom_of_leq goodSmaller.1.2 goodGreater.1.2 featuresCovered
    · exact LawfulDomain.isBottom_of_leq depthCovered
  parts_whole _ := rfl
  whole_parts _ := rfl
  isBottom_bottom := rfl
  lacks_of_isBottom isNothing := by
    have noDepth := (Bool.and_eq_true_iff.mp isNothing).2
    exact Bool.or_eq_true_iff.mpr (Or.inr noDepth)
  leq_eq _ _ := rfl
  join_eq _ _ := rfl
  meet_eq _ _ := rfl
  widen_eq _ _ := rfl
  narrow_eq _ _ := rfl

instance : LatticeOn (@WellFormed heuristics) :=
  smash.latticeOn

end EdgeProperties

/-! ## Taint and points-to sets -/

namespace Taint

variable {heuristics : Heuristics}

/-- No kind has a bottom frame, and all frames are well-formed. -/
def WellFormed (taint : Taint heuristics) : Prop :=
  taint.frames.WellFormed TaintFrame.WellFormed

instance : DecidablePred (@WellFormed heuristics) := fun taint =>
  inferInstanceAs (Decidable (taint.frames.WellFormed TaintFrame.WellFormed))

theorem embedding_frames : Embedding (@frames heuristics) where
  bottom := rfl
  isBottom _ := rfl
  leq _ _ := rfl
  join _ _ := rfl
  widen _ _ := rfl
  meet _ _ := rfl
  narrow _ _ := rfl

instance : LatticeOn (@WellFormed heuristics) :=
  embedding_frames.latticeOn (fun same => congrArg mk same) _

/-- No kind has a bottom frame, and all frames are whole. -/
def Whole (GoodFeatures : FeatureSet → Prop) (taint : Taint heuristics) : Prop :=
  taint.frames.WellFormed (TaintFrame.Whole GoodFeatures)

instance (GoodFeatures : FeatureSet → Prop) [SemilatticeOn GoodFeatures] :
    SemilatticeOn (@Whole heuristics GoodFeatures) :=
  embedding_frames.semilatticeOn (fun same => congrArg mk same) _

theorem WellFormed.whole {taint : Taint heuristics} (formed : taint.WellFormed) :
    taint.Whole fun _ => True := by
  refine Partition.WellFormed.imp ?_ formed
  intro frame frameFormed
  exact frameFormed.imp_right (And.imp_left fun _ => trivial)

end Taint

namespace PointsToSet

variable {heuristics : Heuristics}

/-- No location has a bottom edge, and all edges are well-formed. -/
def WellFormed (set : PointsToSet heuristics) : Prop :=
  set.targets.WellFormed EdgeProperties.WellFormed

instance : DecidablePred (@WellFormed heuristics) := fun set =>
  inferInstanceAs (Decidable (set.targets.WellFormed EdgeProperties.WellFormed))

theorem embedding_targets : Embedding (@targets heuristics) where
  bottom := rfl
  isBottom _ := rfl
  leq _ _ := rfl
  join _ _ := rfl
  widen _ _ := rfl
  meet _ _ := rfl
  narrow _ _ := rfl

instance : LatticeOn (@WellFormed heuristics) :=
  embedding_targets.latticeOn (fun same => congrArg mk same) _

end PointsToSet

end AliasTaint
