import AliasTaint.Proofs.Tree.Hoist
import AliasTaint.Proofs.Tree.Write
import AliasTaint.Proofs.Value.Stamp

/-!
# Taint that crosses an alias edge

Taint that crosses an alias edge is collapsed at the depth of the edge, and then stamped with what the
edge adds.  What is shown at a path afterwards is described by the values that were stored along the
path before and, if the path reaches the depth of the edge, by all values stored below there.

With a greater edge more is shown: its depth is smaller, and it stamps more.  For the kinds of the
shown taint this holds whatever the features of the edges are.
-/

namespace AliasTaint

open Domain

variable {heuristics : Heuristics}

/-! ## Depths -/

namespace CollapseDepth

/-- The depth at which a collapse shows in a path of a given length; past the length, if it does not. -/
def reach (depth : CollapseDepth) (length : Nat) : Nat :=
  match depth.collapseAt? with
  | some number => min number.toNat (length + 1)
  | none => length + 1

theorem reach_le (depth : CollapseDepth) (length : Nat) : depth.reach length ≤ length + 1 := by
  unfold reach
  split <;> omega

theorem reach_unlimited (length : Nat) : (level unlimited).reach length = length + 1 :=
  rfl

theorem reach_level {number : UInt32} (limited : number ≠ unlimited) (length : Nat) :
    (level number).reach length = min number.toNat (length + 1) := by
  simp [reach, collapseAt?, limited]

theorem reach_anti {smaller greater : CollapseDepth} (covered : smaller.leq greater)
    (length : Nat) : greater.reach length ≤ smaller.reach length := by
  cases smaller with
  | bottom =>
      exact reach_le greater length
  | level smallerNumber =>
      cases greater with
      | bottom =>
          exact nomatch covered
      | level greaterNumber =>
          rw [level_leq_level_iff] at covered
          by_cases never : smallerNumber = unlimited
          · rw [never, reach_unlimited]
            exact reach_le _ length
          · -- No number is past the one that stands for no collapse.
            have alsoLimited : greaterNumber ≠ unlimited := by
              intro isUnlimited
              have largest : unlimited.toNat = 4294967295 := rfl
              have below := smallerNumber.toNat_lt
              rw [isUnlimited] at covered
              exact never (UInt32.toNat_inj.mp (by omega))
            rw [reach_level never, reach_level alsoLimited]
            omega

end CollapseDepth

/-! ## Stamps and marks -/

namespace EdgeProperties

/-- Taint with the positions and features of an edge. -/
def stamp (edge : EdgeProperties heuristics) (taint : Taint heuristics) : Taint heuristics :=
  (taint.addPositions edge.positions).addFeatures edge.features

section Stamps

variable {GoodFeatures : FeatureSet → Prop} [SemilatticeOn GoodFeatures]
  {edge : EdgeProperties heuristics} (admits : FeatureSet.Admits GoodFeatures edge.features)

include admits

theorem joinMapOn_stamp :
    JoinMapOn (Taint.Whole GoodFeatures) (Taint.Whole GoodFeatures) edge.stamp :=
  (Taint.joinMapOn_addFeatures admits).comp (Taint.joinMapOn_addPositions edge.positions)

theorem lacks_stamp_iff {taint : Taint heuristics} (whole : taint.Whole GoodFeatures)
    (kind : Kind) : (edge.stamp taint).Lacks kind ↔ taint.Lacks kind := by
  have positioned := (Taint.joinMapOn_addPositions edge.positions).good whole
  exact (Taint.lacks_addFeatures_iff admits positioned kind).trans
    (Taint.lacks_addPositions_iff edge.positions whole kind)

end Stamps

theorem parts_leq_of_leq {smaller greater : EdgeProperties heuristics}
    (filled : smaller.isBottom = false) (covered : smaller.leq greater) :
    smaller.positions.leq greater.positions ∧ smaller.features.leq greater.features ∧
      smaller.collapseDepth.leq greater.collapseDepth := by
  unfold leq at covered
  rw [filled] at covered
  split at covered
  · rename_i isNothing
    exact nomatch isNothing
  · split at covered
    · exact nomatch covered
    · simp only [Bool.and_eq_true] at covered
      exact ⟨covered.1.1, covered.1.2, covered.2⟩

theorem WellFormed.features {edge : EdgeProperties heuristics} (formed : edge.WellFormed) :
    edge.features.WellFormed := by
  rcases formed with rfl | ⟨_, featuresFormed, _⟩
  · exact trivial
  · exact featuresFormed

/-- A greater edge stamps more. -/
theorem stamp_leq_stamp {smaller greater : EdgeProperties heuristics}
    (smallerFormed : smaller.WellFormed) (greaterFormed : greater.WellFormed)
    (filled : smaller.isBottom = false) (covered : smaller.leq greater)
    {taint : Taint heuristics} (formed : taint.WellFormed) :
    Domain.leq (smaller.stamp taint) (greater.stamp taint) := by
  obtain ⟨positionsCovered, featuresCovered, _⟩ := parts_leq_of_leq filled covered
  rcases smallerFormed with rfl | ⟨_, smallerFeatures, positionsFilled, featuresFilled, _⟩
  · exact nomatch filled
  rcases greaterFormed with rfl | ⟨_, greaterFeatures, greaterPositions, greaterFilled, _⟩
  · exact absurd (PositionSet.leq_bottom_iff.mp positionsCovered) positionsFilled
  have admitsSmaller := FeatureSet.admits_of_wellFormed smallerFeatures
  have admitsGreater := FeatureSet.admits_of_wellFormed greaterFeatures
  have before := (Taint.joinMapOn_addPositions smaller.positions).good formed
  have after := (Taint.joinMapOn_addPositions greater.positions).good formed
  have positioned : Domain.leq (taint.addPositions smaller.positions)
      (taint.addPositions greater.positions) :=
    Taint.addPositions_leq_addPositions positionsFilled greaterPositions positionsCovered formed
  have keeps : JoinMapOn (@Taint.WellFormed heuristics) Taint.WellFormed
      fun taint => taint.addFeatures smaller.features :=
    Taint.joinMapOn_addFeatures admitsSmaller
  have first := keeps.monotone before after positioned
  have second := Taint.addFeatures_leq_addFeatures smallerFeatures greaterFeatures featuresFilled
    greaterFilled featuresCovered after
  exact SemilatticeOn.leq_trans (keeps.good before) (keeps.good after)
    ((Taint.joinMapOn_addFeatures admitsGreater).good after) first second

end EdgeProperties

namespace TaintTree

section Marks

variable {GoodFeatures : FeatureSet → Prop} [SemilatticeOn GoodFeatures]
  (admitsMark : FeatureSet.Admits GoodFeatures (.ofMay [.viaCollapse]))

include admitsMark

theorem joinMapOn_markCollapsed :
    JoinMapOn (@Taint.Whole heuristics GoodFeatures) (Taint.Whole GoodFeatures) markCollapsed :=
  Taint.joinMapOn_addFeatures admitsMark

theorem lacks_markCollapsed_iff {taint : Taint heuristics} (whole : taint.Whole GoodFeatures)
    (kind : Kind) : (markCollapsed taint).Lacks kind ↔ taint.Lacks kind :=
  Taint.lacks_addFeatures_iff admitsMark whole kind

theorem leq_markCollapsed {taint : Taint heuristics} (whole : taint.Whole GoodFeatures) :
    Domain.leq taint (markCollapsed taint) :=
  Taint.leq_addFeatures_ofMay [.viaCollapse] admitsMark whole

theorem markCollapsed_twice {taint : Taint heuristics} (whole : taint.Whole GoodFeatures) :
    markCollapsed (markCollapsed taint) = markCollapsed taint :=
  Taint.addFeatures_twice whole admitsMark

/-- Marked taint covers what it covers along with the mark. -/
theorem markCollapsed_leq_markCollapsed {taint upper : Taint heuristics}
    (whole : taint.Whole GoodFeatures) (wholeUpper : upper.Whole GoodFeatures)
    (covered : Domain.leq taint (markCollapsed upper)) :
    Domain.leq (markCollapsed taint) (markCollapsed upper) := by
  have marks : JoinMapOn (@Taint.Whole heuristics GoodFeatures) (Taint.Whole GoodFeatures)
      markCollapsed := joinMapOn_markCollapsed admitsMark
  have marked := marks.monotone whole (marks.good wholeUpper) covered
  rwa [markCollapsed_twice admitsMark wholeUpper] at marked

/-- A mark and a stamp can be put on in any order. -/
theorem stamp_markCollapsed {edge : EdgeProperties heuristics}
    (admits : FeatureSet.Admits GoodFeatures edge.features) {taint : Taint heuristics}
    (whole : taint.Whole GoodFeatures) :
    edge.stamp (markCollapsed taint) = markCollapsed (edge.stamp taint) := by
  have positioned := (Taint.joinMapOn_addPositions edge.positions).good whole
  rw [EdgeProperties.stamp, markCollapsed, Taint.addPositions_addFeatures whole _ admitsMark,
    Taint.addFeatures_right_comm positioned admitsMark admits]
  rfl

end Marks

/-! ## Changed trees -/

section Changing

variable {Good : Taint heuristics → Prop} [SemilatticeOn Good]
  {change : Taint heuristics → Taint heuristics} (keeps : JoinMapOn Good Good change)
  {tree : TaintTree heuristics} (stores : tree.tree.Stores Good)

include keeps stores

theorem stores_transform : (tree.transform change).tree.Stores Good :=
  Node.Stores.normalize policy.sink (Node.Ordered.mapValues change _ tree.tree.ordered)
    (Node.Stores.mapValues keeps.good stores)

/-- A change that keeps joins changes what is shown as it changes what is stored. -/
theorem view_transform (path : Path) :
    (tree.transform change).view path = change (tree.view path) := by
  refine Node.eq_view_of_allAlong_iff (stores_transform keeps stores)
    (keeps.good (good_view stores path)) ?_
  intro upper goodUpper
  have ideal := ideal_leq goodUpper
  refine (Node.allAlong_normalize_iff ideal (Node.Ordered.mapValues change _ tree.tree.ordered)
    (Node.Stores.mapValues keeps.good stores) path).trans ?_
  refine (Node.allAlong_mapValues_iff keeps.bottom path).trans ?_
  exact (Node.inside_view_iff (ideal.comap keeps) stores path).symm

end Changing

/-! ## Collapsed trees -/

section Collapsing

variable {GoodFeatures : FeatureSet → Prop} [SemilatticeOn GoodFeatures]
  (admitsMark : FeatureSet.Admits GoodFeatures (.ofMay [.viaCollapse]))
  {tree : TaintTree heuristics} (stores : tree.tree.Stores (Taint.Whole GoodFeatures))

include admitsMark stores

theorem stores_collapseDeeperThan (height : Nat) :
    (tree.collapseDeeperThan height).tree.Stores (Taint.Whole GoodFeatures) :=
  Node.Stores.normalize policy.sink
    (Node.Ordered.flattenAt markCollapsed tree.tree.node height tree.tree.ordered)
    (Node.Stores.flattenAt (joinMapOn_markCollapsed admitsMark) stores height)

theorem allAlong_collapseDeeperThan_iff {Inside : Taint heuristics → Prop}
    (ideal : Ideal (Taint.Whole GoodFeatures) Inside) (height : Nat) (path : Path) :
    (tree.collapseDeeperThan height).tree.node.AllAlong Inside path ↔
      tree.tree.node.AllHoisted Inside (fun taint => Inside (markCollapsed taint)) height path := by
  have marks : JoinMapOn (@Taint.Whole heuristics GoodFeatures) (Taint.Whole GoodFeatures)
      markCollapsed := joinMapOn_markCollapsed admitsMark
  have flattened := Node.Ordered.flattenAt markCollapsed tree.tree.node height tree.tree.ordered
  refine (Node.allAlong_normalize_iff ideal flattened
    (Node.Stores.flattenAt marks stores height) path).trans ?_
  exact Node.allAlong_flattenAt_iff marks ideal stores height path

end Collapsing

/-! ## Crossed trees -/

/-- The tree collapsed at the depth of an edge. -/
def collapsedAt (tree : TaintTree heuristics) (depth : CollapseDepth) : TaintTree heuristics :=
  match depth.collapseAt? with
  | some number => tree.collapseDeeperThan number.toNat
  | none => tree

theorem cross_eq (tree : TaintTree heuristics) (edge : EdgeProperties heuristics) :
    tree.cross edge =
      if edge.positions.isEmpty && edge.features.isEmpty then
        tree.collapsedAt edge.collapseDepth
      else
        (tree.collapsedAt edge.collapseDepth).transform edge.stamp :=
  rfl

section Crossing

variable {GoodFeatures : FeatureSet → Prop} [SemilatticeOn GoodFeatures]
  (admitsMark : FeatureSet.Admits GoodFeatures (.ofMay [.viaCollapse]))
  {tree : TaintTree heuristics} (stores : tree.tree.Stores (Taint.Whole GoodFeatures))

include admitsMark stores

theorem stores_collapsedAt (depth : CollapseDepth) :
    (tree.collapsedAt depth).tree.Stores (Taint.Whole GoodFeatures) := by
  unfold collapsedAt
  split
  · exact stores_collapseDeeperThan admitsMark stores _
  · exact stores

theorem allAlong_collapsedAt_iff {Inside : Taint heuristics → Prop}
    (ideal : Ideal (Taint.Whole GoodFeatures) Inside) (depth : CollapseDepth) (path : Path) :
    (tree.collapsedAt depth).tree.node.AllAlong Inside path ↔
      tree.tree.node.AllHoisted Inside (fun taint => Inside (markCollapsed taint))
        (depth.reach path.length) path := by
  unfold collapsedAt CollapseDepth.reach
  split
  · rename_i number _
    rw [allAlong_collapseDeeperThan_iff admitsMark stores ideal]
    by_cases shown : number.toNat ≤ path.length
    · rw [Nat.min_eq_left (by omega)]
    · rw [Nat.min_eq_right (by omega), Node.allHoisted_iff_of_length_lt (by omega),
        Node.allHoisted_iff_of_length_lt (by omega)]
  · exact (Node.allHoisted_iff_of_length_lt (by omega)).symm

variable {edge : EdgeProperties heuristics}
  (admits : FeatureSet.Admits GoodFeatures edge.features)

include admits

theorem stores_cross : (tree.cross edge).tree.Stores (Taint.Whole GoodFeatures) := by
  have collapsedStores := stores_collapsedAt admitsMark stores edge.collapseDepth
  rw [cross_eq]
  split
  · exact collapsedStores
  · exact stores_transform (EdgeProperties.joinMapOn_stamp admits) collapsedStores

theorem view_cross (path : Path) :
    (tree.cross edge).view path = edge.stamp ((tree.collapsedAt edge.collapseDepth).view path) := by
  have collapsedStores := stores_collapsedAt admitsMark stores edge.collapseDepth
  rw [cross_eq]
  split
  · rename_i skipped
    rw [Bool.and_eq_true] at skipped
    simp [EdgeProperties.stamp, Taint.addPositions, Taint.addFeatures, skipped.1, skipped.2]
  · exact view_transform (EdgeProperties.joinMapOn_stamp admits) collapsedStores path

/-- What a crossed tree shows at a path, by the values that the tree stored. -/
theorem inside_view_cross_iff {Inside : Taint heuristics → Prop}
    (ideal : Ideal (Taint.Whole GoodFeatures) Inside) (path : Path) :
    Inside ((tree.cross edge).view path) ↔
      tree.tree.node.AllHoisted (fun taint => Inside (edge.stamp taint))
        (fun taint => Inside (edge.stamp (markCollapsed taint)))
        (edge.collapseDepth.reach path.length) path := by
  have stampedIdeal := ideal.comap (EdgeProperties.joinMapOn_stamp admits)
  have collapsedStores := stores_collapsedAt admitsMark stores edge.collapseDepth
  rw [view_cross admitsMark stores admits, ← allAlong_collapsedAt_iff admitsMark stores stampedIdeal]
  exact Node.inside_view_iff stampedIdeal collapsedStores path

/-- An edge that does not collapse stamps what is shown. -/
theorem view_cross_of_uncollapsed (never : edge.collapseDepth.shouldCollapse = false)
    (path : Path) : (tree.cross edge).view path = edge.stamp (tree.view path) := by
  have absent : edge.collapseDepth.collapseAt? = none :=
    Option.not_isSome_iff_eq_none.mp (Bool.eq_false_iff.mp never)
  rw [view_cross admitsMark stores admits, collapsedAt, absent]

/-- If marks do not matter, then what is shown after the crossing is known from what was shown along
the path before and, if the path reaches the depth of the edge, everywhere below. -/
theorem inside_view_cross_iff_of_marked {Inside : Taint heuristics → Prop}
    (ideal : Ideal (Taint.Whole GoodFeatures) Inside)
    (holdsMarked : ∀ taint, taint.Whole GoodFeatures → Inside taint → Inside (markCollapsed taint))
    (path : Path) :
    Inside ((tree.cross edge).view path) ↔
      Inside (edge.stamp (tree.view path)) ∧
        (edge.collapseDepth.reach path.length ≤ path.length →
          ∀ below, Inside (edge.stamp
            (tree.view (path.take (edge.collapseDepth.reach path.length) ++ below)))) := by
  have stamps := EdgeProperties.joinMapOn_stamp admits
  have stampedIdeal := ideal.comap stamps
  have shown (other : Path) := Node.inside_view_iff stampedIdeal stores other
  have marked (taint : Taint heuristics) (whole : taint.Whole GoodFeatures) :
      Inside (edge.stamp (markCollapsed taint)) ↔ Inside (edge.stamp taint) := by
    have stamped := stamps.good whole
    rw [stamp_markCollapsed admitsMark admits whole]
    refine ⟨?_, holdsMarked _ stamped⟩
    exact ideal.of_leq stamped ((joinMapOn_markCollapsed admitsMark).good stamped)
      (leq_markCollapsed admitsMark stamped)
  have unmarked (depth : Nat) :
      tree.tree.node.AllHoisted (fun taint => Inside (edge.stamp taint))
          (fun taint => Inside (edge.stamp (markCollapsed taint))) depth path ↔
        tree.tree.node.AllHoisted (fun taint => Inside (edge.stamp taint))
          (fun taint => Inside (edge.stamp taint)) depth path := by
    constructor
    · exact Node.AllHoisted.deeper (fun _ _ inside => inside)
        (fun taint whole => (marked taint whole).mp) (fun taint whole => (marked taint whole).mp)
        ((marked _ JoinClosed.bottom).mpr stampedIdeal.bottom) stores (Nat.le_refl depth)
    · exact Node.AllHoisted.deeper (fun _ _ inside => inside)
        (fun taint whole => (marked taint whole).mpr) (fun _ _ inside => inside)
        stampedIdeal.bottom stores (Nat.le_refl depth)
  rw [inside_view_cross_iff admitsMark stores admits ideal, unmarked,
    Node.allHoisted_self_iff stampedIdeal.bottom tree.tree.ordered]
  refine and_congr (shown path).symm (imp_congr_right fun _ => forall_congr' fun below => ?_)
  exact (shown _).symm

/-! ## Greater edges -/

/-- A kind is missing after the crossing if it was missing along the path and, if the path reaches
the depth of the edge, everywhere below. -/
theorem lacks_view_cross_iff (kind : Kind) (path : Path) :
    ((tree.cross edge).view path).Lacks kind ↔
      (tree.view path).Lacks kind ∧
        (edge.collapseDepth.reach path.length ≤ path.length →
          ∀ below, (tree.view (path.take (edge.collapseDepth.reach path.length) ++ below)).Lacks
            kind) := by
  have stamped (other : Path) : (edge.stamp (tree.view other)).Lacks kind ↔ _ :=
    EdgeProperties.lacks_stamp_iff admits (good_view stores other) kind
  have holdsMarked (taint : Taint heuristics) (whole : taint.Whole GoodFeatures) :=
    (lacks_markCollapsed_iff admitsMark whole kind).mpr
  rw [inside_view_cross_iff_of_marked admitsMark stores admits (Taint.ideal_lacks kind) holdsMarked,
    stamped]
  simp only [stamped]

end Crossing

/-- A greater edge shows at least the kinds that a smaller one shows. -/
theorem lacks_view_cross_of_greater {GoodFeatures : FeatureSet → Prop}
    [SemilatticeOn GoodFeatures]
    (admitsMark : FeatureSet.Admits GoodFeatures (.ofMay [.viaCollapse]))
    {tree greaterTree : TaintTree heuristics}
    (stores : tree.tree.Stores (Taint.Whole GoodFeatures))
    (greaterStores : greaterTree.tree.Stores (Taint.Whole GoodFeatures))
    {edge greaterEdge : EdgeProperties heuristics}
    (admits : FeatureSet.Admits GoodFeatures edge.features)
    (greaterAdmits : FeatureSet.Admits GoodFeatures greaterEdge.features)
    {kind : Kind}
    (keepsKind : ∀ path, (greaterTree.view path).Lacks kind → (tree.view path).Lacks kind)
    (depthCovered : edge.collapseDepth.leq greaterEdge.collapseDepth)
    {path : Path} (lacking : ((greaterTree.cross greaterEdge).view path).Lacks kind) :
    ((tree.cross edge).view path).Lacks kind := by
  rw [lacks_view_cross_iff admitsMark greaterStores greaterAdmits] at lacking
  rw [lacks_view_cross_iff admitsMark stores admits]
  obtain ⟨shown, belowShown⟩ := lacking
  have earlier := CollapseDepth.reach_anti depthCovered path.length
  refine ⟨keepsKind path shown, ?_⟩
  intro reached below
  apply keepsKind
  -- The greater edge collapses at a beginning of the path where the smaller one does.
  generalize edge.collapseDepth.reach path.length = deep at *
  generalize greaterEdge.collapseDepth.reach path.length = shallow at *
  have divided : path.take deep = path.take shallow ++ (path.take deep).drop shallow := by
    have parts := List.take_append_drop shallow (path.take deep)
    rw [List.take_take, Nat.min_eq_left earlier] at parts
    exact parts.symm
  rw [divided, List.append_assoc]
  exact belowShown (by omega) _

theorem wellFormed_mark : (FeatureSet.ofMay [.viaCollapse]).WellFormed := by
  cbv

/-- A greater edge shows more. -/
theorem view_cross_leq_of_greater {tree : TaintTree heuristics} (formed : tree.WellFormed)
    {smaller greater : EdgeProperties heuristics}
    (smallerFormed : smaller.WellFormed) (greaterFormed : greater.WellFormed)
    (filled : smaller.isBottom = false) (covered : smaller.leq greater) (path : Path) :
    Domain.leq ((tree.cross smaller).view path) ((tree.cross greater).view path) := by
  have admitsMark := FeatureSet.admits_of_wellFormed wellFormed_mark
  have admitsSmaller := FeatureSet.admits_of_wellFormed smallerFormed.features
  have admitsGreater := FeatureSet.admits_of_wellFormed greaterFormed.features
  have depthCovered := (EdgeProperties.parts_leq_of_leq filled covered).2.2
  have upperFormed := good_view (stores_cross admitsMark formed admitsGreater) path
  have ideal := ideal_leq upperFormed
  have stamps := EdgeProperties.joinMapOn_stamp admitsGreater
  have smallerStamps := EdgeProperties.joinMapOn_stamp admitsSmaller
  have marks : JoinMapOn (@Taint.WellFormed heuristics) Taint.WellFormed markCollapsed :=
    joinMapOn_markCollapsed admitsMark
  have stamped (taint : Taint heuristics) (taintFormed : taint.WellFormed)
      (greaterShown : Domain.leq (greater.stamp taint) ((tree.cross greater).view path)) :
      Domain.leq (smaller.stamp taint) ((tree.cross greater).view path) :=
    SemilatticeOn.leq_trans (smallerStamps.good taintFormed) (stamps.good taintFormed) upperFormed
      (EdgeProperties.stamp_leq_stamp smallerFormed greaterFormed filled covered taintFormed)
      greaterShown
  have hoisted (taint : Taint heuristics) (taintFormed : taint.WellFormed)
      (markedShown : Domain.leq (greater.stamp (markCollapsed taint))
        ((tree.cross greater).view path)) :
      Domain.leq (smaller.stamp taint) ((tree.cross greater).view path) := by
    have markFormed := marks.good taintFormed
    refine stamped taint taintFormed ?_
    exact SemilatticeOn.leq_trans (stamps.good taintFormed) (stamps.good markFormed) upperFormed
      (stamps.monotone taintFormed markFormed (leq_markCollapsed admitsMark taintFormed))
      markedShown
  have bottomMarked : Domain.leq (greater.stamp (markCollapsed Domain.bottom))
      ((tree.cross greater).view path) := by
    rw [marks.bottom, stamps.bottom]
    exact ideal.bottom
  refine (inside_view_cross_iff admitsMark formed admitsSmaller ideal path).mpr ?_
  have greaterShown := (inside_view_cross_iff admitsMark formed admitsGreater ideal path).mp
    (SemilatticeOn.leq_refl upperFormed)
  exact Node.AllHoisted.deeper stamped
    (fun taint taintFormed => stamped _ (marks.good taintFormed)) hoisted bottomMarked formed
    (CollapseDepth.reach_anti depthCovered path.length) greaterShown

end TaintTree

end AliasTaint
