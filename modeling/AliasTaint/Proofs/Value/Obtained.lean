import AliasTaint.Proofs.PointsTo.Edges
import AliasTaint.Proofs.Value.Lattices
import AliasTaint.Proofs.Value.Stamp

/-!
# Invariants of the values of an analysis

Feature sets, position sets, frames, edge properties, taint and points-to sets are built from each
other by constructors, changes and lattice operations.  However they are combined, what always holds
may hold, position sets stay within the limit, a frame or an edge above bottom has positions and
features above bottom, and no bottom value is stored under a kind or a location.

Edge properties are the one place where this is weaker than to be well-formed.  An edge can be made
with the bottom collapse depth, so nothing is said of its depth.
-/

namespace AliasTaint

open Domain

variable {heuristics : Heuristics}

/-! ## Features -/

namespace FeatureSet

theorem wellFormed_ofSets (may always : SortedSet Feature) : (ofSets may always).WellFormed := by
  have mayHold : always.subset (may.union always) := by
    rw [SortedSet.subset_iff]
    intro feature member
    exact SortedSet.mem_union.mpr (Or.inr member)
  exact mayHold

theorem wellFormed_addMay {features : FeatureSet} (formed : features.WellFormed)
    (feature : Feature) : (features.addMay feature).WellFormed := by
  cases features with
  | bottom =>
      exact trivial
  | top =>
      exact trivial
  | value may always =>
      have mayHold : always.subset (may.insert feature) := by
        rw [SortedSet.subset_iff]
        intro other member
        exact SortedSet.mem_insertInto.mpr (Or.inr (SortedSet.subset_iff.mp formed other member))
      exact mayHold

theorem wellFormed_addAlways {features : FeatureSet} (formed : features.WellFormed)
    (feature : Feature) : (features.addAlways feature).WellFormed := by
  cases features with
  | bottom =>
      exact trivial
  | top =>
      exact trivial
  | value may always =>
      have mayHold : (always.insert feature).subset (may.insert feature) := by
        rw [SortedSet.subset_iff]
        intro other member
        refine SortedSet.mem_insertInto.mpr ?_
        exact (SortedSet.mem_insertInto.mp member).imp_right (SortedSet.subset_iff.mp formed other)
      exact mayHold

theorem join_ne_bottom {left : FeatureSet} (filled : left ≠ .bottom) (right : FeatureSet) :
    join left right ≠ .bottom := by
  cases left <;> cases right <;> simp_all [join]

end FeatureSet

/-! ## Positions -/

namespace PositionSet

/-- To add a position is to add all positions of a set with that position alone. -/
theorem add_eq_addAll (positions : PositionSet heuristics) (position : Position) :
    positions.add position = positions.addAll (.listed (.singleton position)) := by
  cases positions <;> rfl

theorem addAll_ne_bottom {positions : PositionSet heuristics} (filled : positions ≠ .bottom)
    (stamped : PositionSet heuristics) : positions.addAll stamped ≠ .bottom := by
  rw [addAll_eq_join filled]
  exact join_ne_bottom filled stamped

theorem wellFormed_add {positions : PositionSet heuristics} (formed : positions.WellFormed)
    (position : Position) : (positions.add position).WellFormed := by
  rw [add_eq_addAll]
  exact wellFormed_addAll formed _

end PositionSet

/-! ## Frames -/

namespace TaintFrame

theorem WellFormed.parts {frame : TaintFrame heuristics} (formed : frame.WellFormed) :
    frame.features.WellFormed ∧ frame.positions.WellFormed := by
  rcases formed with rfl | ⟨featuresFormed, positionsFormed, _, _⟩
  · exact ⟨trivial, trivial⟩
  · exact ⟨featuresFormed, positionsFormed⟩

theorem WellFormed.filled {frame : TaintFrame heuristics} (formed : frame.WellFormed)
    (filled : frame.isBottom = false) :
    frame.positions ≠ .bottom ∧ frame.features ≠ .bottom := by
  rcases formed with rfl | ⟨_, _, featuresFilled, positionsFilled⟩
  · exact nomatch filled
  · exact ⟨positionsFilled, featuresFilled⟩

theorem wellFormed_empty : (empty : TaintFrame heuristics).WellFormed :=
  Or.inr ⟨rfl, Nat.zero_le _, nofun, nofun⟩

theorem wellFormed_addFeatures {frame : TaintFrame heuristics} (formed : frame.WellFormed)
    {features : FeatureSet} (featuresFormed : features.WellFormed) :
    (frame.addFeatures features).WellFormed :=
  (joinMapOn_addFeatures (FeatureSet.admits_of_wellFormed featuresFormed)).good formed

theorem wellFormed_addPositions {frame : TaintFrame heuristics} (formed : frame.WellFormed)
    (positions : PositionSet heuristics) : (frame.addPositions positions).WellFormed := by
  have keeps : JoinMapOn (@Whole heuristics FeatureSet.WellFormed) _ _ :=
    joinMapOn_addPositions positions
  exact keeps.good formed

theorem wellFormed_addPosition {frame : TaintFrame heuristics} (formed : frame.WellFormed)
    (position : Position) : (frame.addPosition position).WellFormed := by
  rw [addPosition, PositionSet.add_eq_addAll]
  exact wellFormed_addPositions formed _

end TaintFrame

/-! ## Properties of alias edges -/

namespace EdgeProperties

/-- Edge properties are bottom, or the positions and features are well-formed and above bottom. -/
def Whole (edge : EdgeProperties heuristics) : Prop :=
  edge = .bottom ∨
    edge.positions.WellFormed ∧ edge.features.WellFormed ∧
      edge.positions ≠ .bottom ∧ edge.features ≠ .bottom

theorem Whole.parts {edge : EdgeProperties heuristics} (whole : edge.Whole) :
    edge.features.WellFormed ∧ edge.positions.WellFormed := by
  rcases whole with rfl | ⟨positionsFormed, featuresFormed, _, _⟩
  · exact ⟨trivial, trivial⟩
  · exact ⟨featuresFormed, positionsFormed⟩

theorem Whole.filled {edge : EdgeProperties heuristics} (whole : edge.Whole)
    (filled : edge.isBottom = false) :
    edge.positions ≠ .bottom ∧ edge.features ≠ .bottom := by
  rcases whole with rfl | ⟨_, _, positionsFilled, featuresFilled⟩
  · exact nomatch filled
  · exact ⟨positionsFilled, featuresFilled⟩

theorem isBottom_of_positions {edge : EdgeProperties heuristics}
    (filled : edge.positions ≠ .bottom) : edge.isBottom = false := by
  simp [isBottom, PositionSet.isBottom, filled]

theorem whole_ofCollapseDepth (depth : CollapseDepth) :
    (ofCollapseDepth depth : EdgeProperties heuristics).Whole :=
  Or.inr ⟨Nat.zero_le _, rfl, nofun, nofun⟩

theorem Whole.addPosition {edge : EdgeProperties heuristics} (whole : edge.Whole)
    (position : Position) : (edge.addPosition position).Whole := by
  rcases whole with rfl | ⟨positionsFormed, featuresFormed, positionsFilled, featuresFilled⟩
  · exact Or.inl rfl
  · refine Or.inr ⟨PositionSet.wellFormed_add positionsFormed position, featuresFormed, ?_,
      featuresFilled⟩
    have added : edge.positions.add position ≠ .bottom := by
      rw [PositionSet.add_eq_addAll]
      exact PositionSet.addAll_ne_bottom positionsFilled _
    exact added

theorem Whole.addFeatures {edge : EdgeProperties heuristics} (whole : edge.Whole)
    {features : FeatureSet} (formed : features.WellFormed) : (edge.addFeatures features).Whole := by
  rcases whole with rfl | ⟨positionsFormed, featuresFormed, positionsFilled, featuresFilled⟩
  · exact Or.inl rfl
  · rw [EdgeProperties.addFeatures, isBottom_of_positions positionsFilled]
    exact Or.inr ⟨positionsFormed, FeatureSet.admits_of_wellFormed formed _ featuresFormed,
      positionsFilled, FeatureSet.add_ne_bottom featuresFilled features⟩

theorem Whole.setAlwaysCollapse {edge : EdgeProperties heuristics} (whole : edge.Whole) :
    edge.setAlwaysCollapse.Whole := by
  unfold EdgeProperties.setAlwaysCollapse
  split
  · exact whole
  · rename_i filled
    exact Or.inr (whole.resolve_left fun isNothing => filled (isNothing ▸ rfl))

theorem Whole.addProperties {edge further : EdgeProperties heuristics} (whole : edge.Whole)
    (furtherWhole : further.Whole) : (edge.addProperties further).Whole := by
  unfold EdgeProperties.addProperties
  split
  · exact whole
  · rename_i filled
    obtain ⟨positionsFormed, featuresFormed, positionsFilled, featuresFilled⟩ :=
      whole.resolve_left fun isNothing => filled (by rw [isNothing]; rfl)
    exact Or.inr ⟨PositionSet.wellFormed_addAll positionsFormed _,
      FeatureSet.admits_of_wellFormed furtherWhole.parts.1 _ featuresFormed,
      PositionSet.addAll_ne_bottom positionsFilled _, FeatureSet.add_ne_bottom featuresFilled _⟩

theorem Whole.join {left right : EdgeProperties heuristics} (leftWhole : left.Whole)
    (rightWhole : right.Whole) : (left.join right).Whole := by
  unfold EdgeProperties.join
  split
  · exact leftWhole
  split
  · exact rightWhole
  rename_i leftFilled
  obtain ⟨positionsFormed, featuresFormed, positionsFilled, featuresFilled⟩ :=
    leftWhole.resolve_left fun isNothing => leftFilled (isNothing ▸ rfl)
  exact Or.inr ⟨PositionSet.wellFormed_join positionsFormed rightWhole.parts.2,
    FeatureSet.wellFormed_join featuresFormed rightWhole.parts.1,
    PositionSet.join_ne_bottom positionsFilled _, FeatureSet.join_ne_bottom featuresFilled _⟩

/-- A meet that lacks a part is bottom as a whole. -/
theorem Whole.meet {left right : EdgeProperties heuristics} (leftWhole : left.Whole)
    (rightWhole : right.Whole) : (left.meet right).Whole := by
  unfold EdgeProperties.meet
  split
  · exact leftWhole
  split
  · exact Or.inl rfl
  unfold orBottom
  split
  · exact Or.inl rfl
  rename_i full
  simp only [Bool.or_eq_true, not_or, PositionSet.isBottom_iff, FeatureSet.isBottom_iff] at full
  exact Or.inr ⟨PositionSet.wellFormed_meet leftWhole.parts.2 rightWhole.parts.2,
    FeatureSet.wellFormed_meet leftWhole.parts.1 rightWhole.parts.1, full.1.1, full.1.2⟩

instance : ClosedDomain (@Whole heuristics) where
  bottom := Or.inl rfl
  join := Whole.join
  widen := Whole.join
  meet := Whole.meet
  narrow := Whole.meet

end EdgeProperties

/-! ## Taint and points-to sets -/

namespace Taint

theorem WellFormed.frame {taint : Taint heuristics} (formed : taint.WellFormed) (kind : Kind) :
    (taint.frame kind).WellFormed := by
  obtain ⟨frames⟩ := taint
  cases frames with
  | top =>
      exact TaintFrame.wellFormed_top
  | sparse map =>
      exact Partition.WellFormed.binding? formed (Or.inl rfl) kind

theorem wellFormed_add {taint : Taint heuristics} (formed : taint.WellFormed) (kind : Kind)
    {frame : TaintFrame heuristics} (frameFormed : frame.WellFormed) :
    (taint.add kind frame).WellFormed :=
  Partition.wellFormed_update formed (Or.inl rfl) kind fun _ currentFormed =>
    JoinClosed.join currentFormed frameFormed

theorem wellFormed_ofFrame (kind : Kind) {frame : TaintFrame heuristics}
    (frameFormed : frame.WellFormed) : (ofFrame kind frame).WellFormed :=
  wellFormed_add JoinClosed.bottom kind frameFormed

theorem wellFormed_addPosition {taint : Taint heuristics} (formed : taint.WellFormed)
    (position : Position) : (taint.addPosition position).WellFormed :=
  Partition.wellFormed_transform formed fun _ frameFormed =>
    TaintFrame.wellFormed_addPosition frameFormed position

theorem wellFormed_addPositions {taint : Taint heuristics} (formed : taint.WellFormed)
    (positions : PositionSet heuristics) : (taint.addPositions positions).WellFormed := by
  have keeps : JoinMapOn (@Whole heuristics FeatureSet.WellFormed) _ _ :=
    joinMapOn_addPositions positions
  exact keeps.good formed

theorem wellFormed_addFeatures {taint : Taint heuristics} (formed : taint.WellFormed)
    {features : FeatureSet} (featuresFormed : features.WellFormed) :
    (taint.addFeatures features).WellFormed :=
  (joinMapOn_addFeatures (FeatureSet.admits_of_wellFormed featuresFormed)).good formed

end Taint

namespace PointsToSet

/-- No location has a bottom edge, and all edges are whole. -/
def Whole (set : PointsToSet heuristics) : Prop :=
  set.targets.WellFormed EdgeProperties.Whole

theorem Whole.get {set : PointsToSet heuristics} (whole : set.Whole) {target : Location}
    {edge : EdgeProperties heuristics} (found : set.get target = .ok edge) : edge.Whole := by
  unfold PointsToSet.get at found
  split at found
  · cases found
  · cases found
    exact Partition.WellFormed.binding? whole (Or.inl rfl) target

theorem Whole.insert {set : PointsToSet heuristics} (whole : set.Whole) (target : Location)
    {edge : EdgeProperties heuristics} (edgeWhole : edge.Whole) : (set.insert target edge).Whole :=
  Partition.wellFormed_update whole (Or.inl rfl) target fun _ currentWhole =>
    currentWhole.join edgeWhole

theorem Whole.withProperties {set : PointsToSet heuristics} (whole : set.Whole)
    {edge : EdgeProperties heuristics} (edgeWhole : edge.Whole) :
    (set.withProperties edge).Whole :=
  Partition.wellFormed_transform whole fun _ currentWhole => currentWhole.addProperties edgeWhole

theorem closedDomain_targets :
    ClosedDomain (Partition.WellFormed (K := Location) (@EdgeProperties.Whole heuristics)) :=
  Partition.closedDomain_wellFormed (fun _ _ => EdgeProperties.filled_join)
    (fun _ _ => EdgeProperties.filled_join)

instance : ClosedDomain (@Whole heuristics) where
  bottom := closedDomain_targets.bottom
  join := closedDomain_targets.join
  widen := closedDomain_targets.widen
  meet := closedDomain_targets.meet
  narrow := closedDomain_targets.narrow

end PointsToSet

/-! ## Obtained values -/

-- Each domain lists its constructors first, then its changes, the lattice operations, and the parts
-- of other values that it can be read from.
mutual

/-- The feature sets that an analysis can obtain. -/
inductive FeatureSet.Obtained (heuristics : Heuristics) : FeatureSet → Prop where
  | bottom : FeatureSet.Obtained heuristics .bottom
  | top : FeatureSet.Obtained heuristics .top
  | empty : FeatureSet.Obtained heuristics .empty
  | ofSets (may always : SortedSet Feature) : FeatureSet.Obtained heuristics (.ofSets may always)
  | ofMay (labels : List Feature) : FeatureSet.Obtained heuristics (.ofMay labels)
  | ofAlways (labels : List Feature) : FeatureSet.Obtained heuristics (.ofAlways labels)
  | addMay {features : FeatureSet} (obtained : FeatureSet.Obtained heuristics features)
      (feature : Feature) : FeatureSet.Obtained heuristics (features.addMay feature)
  | addAlways {features : FeatureSet} (obtained : FeatureSet.Obtained heuristics features)
      (feature : Feature) : FeatureSet.Obtained heuristics (features.addAlways feature)
  | add {left right : FeatureSet} (leftObtained : FeatureSet.Obtained heuristics left)
      (rightObtained : FeatureSet.Obtained heuristics right) :
      FeatureSet.Obtained heuristics (left.add right)
  | combine {left right : FeatureSet} (op : LatticeOp)
      (leftObtained : FeatureSet.Obtained heuristics left)
      (rightObtained : FeatureSet.Obtained heuristics right) :
      FeatureSet.Obtained heuristics (op.apply left right)
  | ofFrame {frame : TaintFrame heuristics} (obtained : TaintFrame.Obtained heuristics frame) :
      FeatureSet.Obtained heuristics frame.features
  | ofEdge {edge : EdgeProperties heuristics} (obtained : EdgeProperties.Obtained heuristics edge) :
      FeatureSet.Obtained heuristics edge.features

/-- The position sets that an analysis can obtain. -/
inductive PositionSet.Obtained (heuristics : Heuristics) : PositionSet heuristics → Prop where
  | bottom : PositionSet.Obtained heuristics .bottom
  | widened : PositionSet.Obtained heuristics .widened
  | empty : PositionSet.Obtained heuristics .empty
  | add {positions : PositionSet heuristics} (obtained : PositionSet.Obtained heuristics positions)
      (position : Position) : PositionSet.Obtained heuristics (positions.add position)
  | addAll {left right : PositionSet heuristics}
      (leftObtained : PositionSet.Obtained heuristics left)
      (rightObtained : PositionSet.Obtained heuristics right) :
      PositionSet.Obtained heuristics (left.addAll right)
  | combine {left right : PositionSet heuristics} (op : LatticeOp)
      (leftObtained : PositionSet.Obtained heuristics left)
      (rightObtained : PositionSet.Obtained heuristics right) :
      PositionSet.Obtained heuristics (op.apply left right)
  | ofFrame {frame : TaintFrame heuristics} (obtained : TaintFrame.Obtained heuristics frame) :
      PositionSet.Obtained heuristics frame.positions
  | ofEdge {edge : EdgeProperties heuristics} (obtained : EdgeProperties.Obtained heuristics edge) :
      PositionSet.Obtained heuristics edge.positions

/-- The frames that an analysis can obtain. -/
inductive TaintFrame.Obtained (heuristics : Heuristics) : TaintFrame heuristics → Prop where
  | bottom : TaintFrame.Obtained heuristics .bottom
  | top : TaintFrame.Obtained heuristics .top
  | empty : TaintFrame.Obtained heuristics .empty
  | ofFeatures {features : FeatureSet} (obtained : FeatureSet.Obtained heuristics features) :
      TaintFrame.Obtained heuristics (.ofFeatures features)
  | addFeatures {frame : TaintFrame heuristics} {features : FeatureSet}
      (obtained : TaintFrame.Obtained heuristics frame)
      (featuresObtained : FeatureSet.Obtained heuristics features) :
      TaintFrame.Obtained heuristics (frame.addFeatures features)
  | addPositions {frame : TaintFrame heuristics} {positions : PositionSet heuristics}
      (obtained : TaintFrame.Obtained heuristics frame)
      (positionsObtained : PositionSet.Obtained heuristics positions) :
      TaintFrame.Obtained heuristics (frame.addPositions positions)
  | combine {left right : TaintFrame heuristics} (op : LatticeOp)
      (leftObtained : TaintFrame.Obtained heuristics left)
      (rightObtained : TaintFrame.Obtained heuristics right) :
      TaintFrame.Obtained heuristics (op.apply left right)
  | ofTaint {taint : Taint heuristics} (obtained : Taint.Obtained heuristics taint) (kind : Kind) :
      TaintFrame.Obtained heuristics (taint.frame kind)

/-- The edge properties that an analysis can obtain.  An edge that is reset has the empty ones. -/
inductive EdgeProperties.Obtained (heuristics : Heuristics) :
    EdgeProperties heuristics → Prop where
  | bottom : EdgeProperties.Obtained heuristics .bottom
  | empty : EdgeProperties.Obtained heuristics .empty
  | alwaysCollapse : EdgeProperties.Obtained heuristics .alwaysCollapse
  | ofCollapseDepth (depth : CollapseDepth) :
      EdgeProperties.Obtained heuristics (.ofCollapseDepth depth)
  | addPosition {edge : EdgeProperties heuristics}
      (obtained : EdgeProperties.Obtained heuristics edge) (position : Position) :
      EdgeProperties.Obtained heuristics (edge.addPosition position)
  | addFeatures {edge : EdgeProperties heuristics} {features : FeatureSet}
      (obtained : EdgeProperties.Obtained heuristics edge)
      (featuresObtained : FeatureSet.Obtained heuristics features) :
      EdgeProperties.Obtained heuristics (edge.addFeatures features)
  | setAlwaysCollapse {edge : EdgeProperties heuristics}
      (obtained : EdgeProperties.Obtained heuristics edge) :
      EdgeProperties.Obtained heuristics edge.setAlwaysCollapse
  | addProperties {edge further : EdgeProperties heuristics}
      (obtained : EdgeProperties.Obtained heuristics edge)
      (furtherObtained : EdgeProperties.Obtained heuristics further) :
      EdgeProperties.Obtained heuristics (edge.addProperties further)
  | combine {left right : EdgeProperties heuristics} (op : LatticeOp)
      (leftObtained : EdgeProperties.Obtained heuristics left)
      (rightObtained : EdgeProperties.Obtained heuristics right) :
      EdgeProperties.Obtained heuristics (op.apply left right)
  | ofTargets {set : PointsToSet heuristics} {edge : EdgeProperties heuristics}
      (obtained : PointsToSet.Obtained heuristics set) {target : Location}
      (found : set.get target = .ok edge) : EdgeProperties.Obtained heuristics edge

/-- The taint that an analysis can obtain. -/
inductive Taint.Obtained (heuristics : Heuristics) : Taint heuristics → Prop where
  | bottom : Taint.Obtained heuristics .bottom
  | top : Taint.Obtained heuristics .top
  | ofKind (kind : Kind) : Taint.Obtained heuristics (.ofKind kind)
  | ofFrame (kind : Kind) {frame : TaintFrame heuristics}
      (frameObtained : TaintFrame.Obtained heuristics frame) :
      Taint.Obtained heuristics (.ofFrame kind frame)
  | add {taint : Taint heuristics} {frame : TaintFrame heuristics}
      (obtained : Taint.Obtained heuristics taint) (kind : Kind)
      (frameObtained : TaintFrame.Obtained heuristics frame) :
      Taint.Obtained heuristics (taint.add kind frame)
  | addPosition {taint : Taint heuristics} (obtained : Taint.Obtained heuristics taint)
      (position : Position) : Taint.Obtained heuristics (taint.addPosition position)
  | addPositions {taint : Taint heuristics} {positions : PositionSet heuristics}
      (obtained : Taint.Obtained heuristics taint)
      (positionsObtained : PositionSet.Obtained heuristics positions) :
      Taint.Obtained heuristics (taint.addPositions positions)
  | addFeatures {taint : Taint heuristics} {features : FeatureSet}
      (obtained : Taint.Obtained heuristics taint)
      (featuresObtained : FeatureSet.Obtained heuristics features) :
      Taint.Obtained heuristics (taint.addFeatures features)
  | combine {left right : Taint heuristics} (op : LatticeOp)
      (leftObtained : Taint.Obtained heuristics left)
      (rightObtained : Taint.Obtained heuristics right) :
      Taint.Obtained heuristics (op.apply left right)

/-- The points-to sets that an analysis can obtain. -/
inductive PointsToSet.Obtained (heuristics : Heuristics) : PointsToSet heuristics → Prop where
  | bottom : PointsToSet.Obtained heuristics .bottom
  | top : PointsToSet.Obtained heuristics .top
  | single (target : Location) {edge : EdgeProperties heuristics}
      (edgeObtained : EdgeProperties.Obtained heuristics edge) :
      PointsToSet.Obtained heuristics (.single target edge)
  | insert {set : PointsToSet heuristics} {edge : EdgeProperties heuristics}
      (obtained : PointsToSet.Obtained heuristics set) (target : Location)
      (edgeObtained : EdgeProperties.Obtained heuristics edge) :
      PointsToSet.Obtained heuristics (set.insert target edge)
  | withProperties {set : PointsToSet heuristics} {edge : EdgeProperties heuristics}
      (obtained : PointsToSet.Obtained heuristics set)
      (edgeObtained : EdgeProperties.Obtained heuristics edge) :
      PointsToSet.Obtained heuristics (set.withProperties edge)
  | combine {left right : PointsToSet heuristics} (op : LatticeOp)
      (leftObtained : PointsToSet.Obtained heuristics left)
      (rightObtained : PointsToSet.Obtained heuristics right) :
      PointsToSet.Obtained heuristics (op.apply left right)

end

/-! ## What every obtained value satisfies -/

-- By induction on how a value was obtained, in all six domains at once.
mutual

theorem FeatureSet.Obtained.wellFormed {features : FeatureSet} :
    FeatureSet.Obtained heuristics features → features.WellFormed
  | .bottom => trivial
  | .top => trivial
  | .empty => rfl
  | .ofSets may always => FeatureSet.wellFormed_ofSets may always
  | .ofMay _ => FeatureSet.wellFormed_ofSets _ _
  | .ofAlways _ => FeatureSet.wellFormed_ofSets _ _
  | .addMay obtained feature => FeatureSet.wellFormed_addMay obtained.wellFormed feature
  | .addAlways obtained feature => FeatureSet.wellFormed_addAlways obtained.wellFormed feature
  | .add left right => FeatureSet.admits_of_wellFormed right.wellFormed _ left.wellFormed
  | .combine op left right => ClosedDomain.apply op left.wellFormed right.wellFormed
  | .ofFrame obtained => obtained.wellFormed.parts.1
  | .ofEdge obtained => obtained.whole.parts.1

theorem PositionSet.Obtained.wellFormed {positions : PositionSet heuristics} :
    PositionSet.Obtained heuristics positions → positions.WellFormed
  | .bottom => trivial
  | .widened => trivial
  | .empty => Nat.zero_le _
  | .add obtained position => PositionSet.wellFormed_add obtained.wellFormed position
  | .addAll left _ => PositionSet.wellFormed_addAll left.wellFormed _
  | .combine op left right => ClosedDomain.apply op left.wellFormed right.wellFormed
  | .ofFrame obtained => obtained.wellFormed.parts.2
  | .ofEdge obtained => obtained.whole.parts.2

theorem TaintFrame.Obtained.wellFormed {frame : TaintFrame heuristics} :
    TaintFrame.Obtained heuristics frame → frame.WellFormed
  | .bottom => Or.inl rfl
  | .top => TaintFrame.wellFormed_top
  | .empty => TaintFrame.wellFormed_empty
  | .ofFeatures features =>
      TaintFrame.wellFormed_addFeatures TaintFrame.wellFormed_empty features.wellFormed
  | .addFeatures obtained features =>
      TaintFrame.wellFormed_addFeatures obtained.wellFormed features.wellFormed
  | .addPositions obtained _ => TaintFrame.wellFormed_addPositions obtained.wellFormed _
  | .combine op left right => ClosedDomain.apply op left.wellFormed right.wellFormed
  | .ofTaint obtained kind => obtained.wellFormed.frame kind

theorem EdgeProperties.Obtained.whole {edge : EdgeProperties heuristics} :
    EdgeProperties.Obtained heuristics edge → edge.Whole
  | .bottom => Or.inl rfl
  | .empty => EdgeProperties.whole_ofCollapseDepth _
  | .alwaysCollapse => EdgeProperties.whole_ofCollapseDepth _
  | .ofCollapseDepth depth => EdgeProperties.whole_ofCollapseDepth depth
  | .addPosition obtained position => obtained.whole.addPosition position
  | .addFeatures obtained features => obtained.whole.addFeatures features.wellFormed
  | .setAlwaysCollapse obtained => obtained.whole.setAlwaysCollapse
  | .addProperties obtained further => obtained.whole.addProperties further.whole
  | .combine op left right => ClosedDomain.apply op left.whole right.whole
  | .ofTargets obtained found => obtained.whole.get found

theorem Taint.Obtained.wellFormed {taint : Taint heuristics} :
    Taint.Obtained heuristics taint → taint.WellFormed
  | .bottom => nofun
  | .top => trivial
  | .ofKind kind => Taint.wellFormed_ofFrame kind TaintFrame.wellFormed_empty
  | .ofFrame kind frame => Taint.wellFormed_ofFrame kind frame.wellFormed
  | .add obtained kind frame => Taint.wellFormed_add obtained.wellFormed kind frame.wellFormed
  | .addPosition obtained position => Taint.wellFormed_addPosition obtained.wellFormed position
  | .addPositions obtained _ => Taint.wellFormed_addPositions obtained.wellFormed _
  | .addFeatures obtained features =>
      Taint.wellFormed_addFeatures obtained.wellFormed features.wellFormed
  | .combine op left right => ClosedDomain.apply op left.wellFormed right.wellFormed

theorem PointsToSet.Obtained.whole {set : PointsToSet heuristics} :
    PointsToSet.Obtained heuristics set → set.Whole
  | .bottom => nofun
  | .top => trivial
  | .single target edge => PointsToSet.Whole.insert ClosedDomain.bottom target edge.whole
  | .insert obtained target edge => obtained.whole.insert target edge.whole
  | .withProperties obtained edge => obtained.whole.withProperties edge.whole
  | .combine op left right => ClosedDomain.apply op left.whole right.whole

end

/-- However the values of an analysis were obtained, the invariants of their domains hold. -/
theorem obtained_invariants (heuristics : Heuristics) :
    (∀ features, FeatureSet.Obtained heuristics features → features.WellFormed) ∧
    (∀ positions, PositionSet.Obtained heuristics positions → positions.WellFormed) ∧
    (∀ frame, TaintFrame.Obtained heuristics frame → frame.isBottom = false →
      frame.positions ≠ .bottom ∧ frame.features ≠ .bottom) ∧
    (∀ edge, EdgeProperties.Obtained heuristics edge → edge.isBottom = false →
      edge.positions ≠ .bottom ∧ edge.features ≠ .bottom) ∧
    (∀ taint, Taint.Obtained heuristics taint →
      (∀ binding ∈ taint.frames.bindings, binding.2.isBottom = false) ∧
      (taint.frames.isTop → taint.frames.bindings = [])) ∧
    (∀ set, PointsToSet.Obtained heuristics set →
      (∀ binding ∈ set.targets.bindings, binding.2.isBottom = false) ∧
      (set.targets.isTop → set.targets.bindings = [])) :=
  ⟨fun _ obtained => obtained.wellFormed,
    fun _ obtained => obtained.wellFormed,
    fun _ obtained => obtained.wellFormed.filled,
    fun _ obtained => obtained.whole.filled,
    fun _ obtained =>
      ⟨Partition.WellFormed.filled obtained.wellFormed, Partition.bindings_of_isTop⟩,
    fun _ obtained =>
      ⟨Partition.WellFormed.filled obtained.whole, Partition.bindings_of_isTop⟩⟩

/-- Two kinds of taint, one of which always has a feature that it may not have in the meet. -/
def clashingTaint : Taint .standard :=
  Domain.meet
    ((Taint.ofKind ⟨"file"⟩).add ⟨"user"⟩ (.ofFeatures (.ofAlways [⟨"escaped"⟩])))
    ((Taint.ofKind ⟨"file"⟩).add ⟨"user"⟩ .empty)

/-- A target behind an edge without a collapse depth, which was stamped all the same. -/
def stampedTarget : PointsToSet .standard :=
  (PointsToSet.single ⟨⟨1⟩, []⟩ (.ofCollapseDepth .bottom)).withProperties
    ((EdgeProperties.empty.addFeatures (.ofAlways [⟨"escaped"⟩])).addPosition ⟨"main", 7⟩)

theorem obtained_invariants_clashing :
    Taint.Obtained .standard clashingTaint ∧ clashingTaint.kinds = [⟨"file"⟩] ∧
    (∀ binding ∈ clashingTaint.frames.bindings, binding.2.isBottom = false) ∧
    ∃ edge, stampedTarget.get ⟨⟨1⟩, []⟩ = .ok edge ∧
      EdgeProperties.Obtained .standard edge ∧ edge.isBottom = false ∧
      edge.positions ≠ .bottom ∧ edge.features ≠ .bottom ∧
      edge.features.WellFormed ∧ edge.positions.WellFormed := by
  obtain ⟨features, positions, _, edges, taints, _⟩ := obtained_invariants .standard
  have clashing : Taint.Obtained .standard clashingTaint :=
    .combine .meet (.add (.ofKind _) _ (.ofFeatures (.ofAlways _))) (.add (.ofKind _) _ .empty)
  have stamped : PointsToSet.Obtained .standard stampedTarget :=
    .withProperties (.single _ (.ofCollapseDepth _))
      (.addPosition (.addFeatures .empty (.ofAlways _)) _)
  refine ⟨clashing, by cbv, (taints _ clashing).1, _, rfl, ?_⟩
  have edge := EdgeProperties.Obtained.ofTargets stamped
    (rfl : stampedTarget.get ⟨⟨1⟩, []⟩ = .ok _)
  have filled := edges _ edge (by cbv)
  exact ⟨edge, by cbv, filled.1, filled.2, features _ (.ofEdge edge), positions _ (.ofEdge edge)⟩

end AliasTaint
