import AliasTaint.Proofs.Taint.Equality
import AliasTaint.Proofs.Value.Obtained

/-!
# Stamps on shown taint

An alias edge stamps the values that a tree stores, and what the stamped values repeat is dropped
again.  To an observer the edge stamps what is shown: at every path, every kind has the frame that it
had in the collapsed tree, with the positions and the features of the edge added.  No kind appears or
disappears, and without a collapse it makes no difference whether trees are stamped before they are
joined or after.
-/

namespace AliasTaint

open Domain

variable {heuristics : Heuristics}

/-! ## Stamped frames -/

namespace EdgeProperties

/-- A frame with the positions and features of an edge; where there is no taint, none is added. -/
def stampFrame (edge : EdgeProperties heuristics) (frame : TaintFrame heuristics) :
    TaintFrame heuristics :=
  if frame.isBottom then
    frame
  else
    { features := frame.features.add edge.features
      positions := frame.positions.addAll edge.positions }

theorem addFeatures_addPositions_eq_stampFrame (edge : EdgeProperties heuristics)
    {frame : TaintFrame heuristics} (formed : frame.WellFormed) :
    (frame.addPositions edge.positions).addFeatures edge.features = edge.stampFrame frame := by
  rcases formed with rfl | ⟨_, _, filled, _⟩
  · have unchanged : TaintFrame.bottom.addPositions edge.positions = .bottom := by
      cases edge.positions <;> rfl
    rw [unchanged]
    rfl
  · have stillFilled : (frame.addPositions edge.positions).features ≠ .bottom := filled
    rw [TaintFrame.addFeatures_of_filled stillFilled, stampFrame,
      TaintFrame.isBottom_of_features filled]
    rfl

theorem kinds_stamp {edge : EdgeProperties heuristics} (formed : edge.features.WellFormed)
    {taint : Taint heuristics} (taintFormed : taint.WellFormed) :
    (edge.stamp taint).kinds = taint.kinds := by
  have positioned := Taint.wellFormed_addPositions taintFormed edge.positions
  exact (Taint.kinds_addFeatures (FeatureSet.admits_of_wellFormed formed) positioned).trans
    (Taint.kinds_addPositions edge.positions taintFormed)

theorem isTop_stamp (edge : EdgeProperties heuristics) (taint : Taint heuristics) :
    (edge.stamp taint).frames.isTop = taint.frames.isTop :=
  (Taint.isTop_addFeatures _ edge.features).trans (Taint.isTop_addPositions taint edge.positions)

theorem frame_stamp {edge : EdgeProperties heuristics} (positionsFilled : edge.positions ≠ .bottom)
    (featuresFilled : edge.features ≠ .bottom) (formed : edge.features.WellFormed)
    {taint : Taint heuristics} (taintFormed : taint.WellFormed) (kind : Kind) :
    (edge.stamp taint).frame kind = edge.stampFrame (taint.frame kind) := by
  have positioned := Taint.wellFormed_addPositions taintFormed edge.positions
  rw [stamp, Taint.frame_addFeatures formed featuresFilled
      (FeatureSet.admits_of_wellFormed formed) positioned,
    Taint.frame_addPositions positionsFilled taintFormed]
  exact addFeatures_addPositions_eq_stampFrame edge (Taint.WellFormed.frame taintFormed kind)

end EdgeProperties

/-! ## Stamped trees -/

namespace TaintTree

/-- A join of trees that are stamped without a collapse shows what the stamped join shows. -/
theorem view_cross_join {edge : EdgeProperties heuristics} (formed : edge.features.WellFormed)
    (never : edge.collapseDepth.shouldCollapse = false) {left right : TaintTree heuristics}
    (leftFormed : left.WellFormed) (rightFormed : right.WellFormed) (path : Path) :
    ((left.join right).cross edge).view path =
      ((left.cross edge).join (right.cross edge)).view path := by
  have admits := FeatureSet.admits_of_wellFormed formed
  have stamps := EdgeProperties.joinMapOn_stamp admits
  have joinFormed := stores_join leftFormed rightFormed
  have leftCrossed := stores_cross admits_mark leftFormed admits
  have rightCrossed := stores_cross admits_mark rightFormed admits
  refine SemilatticeOn.eq_of_leq_iff (good_view (stores_cross admits_mark joinFormed admits) path)
    (good_view (stores_join leftCrossed rightCrossed) path) fun upper goodUpper => ?_
  have ideal := ideal_leq goodUpper
  rw [inside_view_join_iff ideal leftCrossed rightCrossed,
    view_cross_of_uncollapsed admits_mark joinFormed admits never,
    view_cross_of_uncollapsed admits_mark leftFormed admits never,
    view_cross_of_uncollapsed admits_mark rightFormed admits never]
  exact inside_view_join_iff (ideal.comap stamps) leftFormed rightFormed path

/-- An edge stamps what the collapsed tree shows, kind by kind; no kind appears or disappears.  An
edge that does not collapse can be crossed before a join or after it. -/
theorem cross_stamps_views {edge : EdgeProperties heuristics}
    (positionsFilled : edge.positions ≠ .bottom) (featuresFilled : edge.features ≠ .bottom)
    (formed : edge.features.WellFormed) :
    (∀ tree : TaintTree heuristics, tree.Normal → ∀ path : Path,
      (∀ kind, ((tree.cross edge).view path).frame kind =
        edge.stampFrame (((tree.collapsedAt edge.collapseDepth).view path).frame kind)) ∧
      ((tree.cross edge).view path).kinds =
        ((tree.collapsedAt edge.collapseDepth).view path).kinds ∧
      ((tree.cross edge).view path).frames.isTop =
        ((tree.collapsedAt edge.collapseDepth).view path).frames.isTop) ∧
    (edge.collapseDepth.shouldCollapse = false → ∀ left right : TaintTree heuristics,
      left.Normal → right.Normal →
      equals ((left.join right).cross edge) ((left.cross edge).join (right.cross edge))) := by
  have admits := FeatureSet.admits_of_wellFormed formed
  refine ⟨?shown, ?joined⟩
  case shown =>
    intro tree normal path
    have shownFormed := good_view
      (stores_collapsedAt admits_mark normal.wellFormed edge.collapseDepth) path
    rw [view_cross admits_mark normal.wellFormed admits]
    exact ⟨EdgeProperties.frame_stamp positionsFilled featuresFilled formed shownFormed,
      EdgeProperties.kinds_stamp formed shownFormed, EdgeProperties.isTop_stamp edge _⟩
  case joined =>
    intro never left right leftNormal rightNormal
    have leftFormed := leftNormal.wellFormed
    have rightFormed := rightNormal.wellFormed
    have leftCrossed := stores_cross admits_mark leftFormed admits
    have rightCrossed := stores_cross admits_mark rightFormed admits
    have joinCrossed := stores_cross admits_mark (stores_join leftFormed rightFormed) admits
    exact (equals_iff_view_eq joinCrossed (stores_join leftCrossed rightCrossed)).mpr
      (view_cross_join formed never leftFormed rightFormed)

/-- The edge of a call in a given line. -/
def callEdge (collapseDepth : CollapseDepth) : EdgeProperties .standard where
  positions := .add ⟨"call", 7⟩ .empty
  features := .ofAlways [⟨"called"⟩]
  collapseDepth := collapseDepth

theorem cross_stamps_views_call :
    (callEdge .collapse).positions ≠ .bottom ∧ (callEdge .collapse).features ≠ .bottom ∧
    (callEdge .collapse).features.WellFormed ∧ (ofEdges rootLast).Normal ∧
    (((ofEdges rootLast).cross (callEdge .collapse)).view [.anyIndex]).frame ⟨"B"⟩ =
      (callEdge .collapse).stampFrame
        ((((ofEdges rootLast).collapseDeeperThan 0).view [.anyIndex]).frame ⟨"B"⟩) ∧
    (callEdge .noCollapse).collapseDepth.shouldCollapse = false ∧
    elementsA.Normal ∧ elementsB.Normal ∧
    equals ((elementsA.join elementsB).cross (callEdge .noCollapse))
      ((elementsA.cross (callEdge .noCollapse)).join (elementsB.cross (callEdge .noCollapse))) := by
  have positionsFilled : (callEdge .collapse).positions ≠ .bottom := of_decide_eq_true (by cbv)
  have featuresFilled : (callEdge .collapse).features ≠ .bottom := of_decide_eq_true (by cbv)
  have formed : (callEdge .collapse).features.WellFormed := by cbv
  have normal : (ofEdges rootLast).Normal := normal_ofEdges (of_decide_eq_true (by cbv))
  have normalA : elementsA.Normal := normal_ofEdges (of_decide_eq_true (by cbv))
  have normalB : elementsB.Normal := normal_ofEdges (of_decide_eq_true (by cbv))
  have shown := (cross_stamps_views positionsFilled featuresFilled formed).1
  have joined :=
    (@cross_stamps_views _ (callEdge .noCollapse) positionsFilled featuresFilled formed).2
  exact ⟨positionsFilled, featuresFilled, formed, normal, (shown _ normal [.anyIndex]).1 ⟨"B"⟩, rfl,
    normalA, normalB, joined rfl _ _ normalA normalB⟩

end TaintTree

end AliasTaint
