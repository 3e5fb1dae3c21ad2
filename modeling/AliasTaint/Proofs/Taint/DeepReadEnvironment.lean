import AliasTaint.Proofs.Taint.DeepReadMonotone
import AliasTaint.Proofs.Taint.EnvironmentWiden

/-!
# Deep reads of greater environments

An edge that collapses marks the taint that it moves upwards, and only that.  In a greater environment
the same taint may be stored higher up, where it need not be moved.  It is then found without the
mark, so a deep read of a greater environment is greater except for marks, and it is greater as it
stands if no edge collapses.

Both are proved in the same way.  A comparison of taint that joins and the alias edges keep is kept
from hop to hop, whatever it is.
-/

namespace AliasTaint

open Domain

variable {heuristics : Heuristics}

/-! ## Comparisons that edges keep -/

/-- Joins and the edges of an alias map keep a comparison of taint: the taint below a bound is an ideal
that grows with the bound, and trees that compare at every path do so after crossing an edge. -/
structure AliasMap.Keeps (aliases : AliasMap heuristics)
    (Below : Taint heuristics → Taint heuristics → Prop) : Prop where
  ideal {upper : Taint heuristics} : upper.Whole (fun _ => True) →
    Ideal (Taint.Whole fun _ => True) fun taint => Below taint upper
  raise {taint middle upper : Taint heuristics} : taint.Whole (fun _ => True) →
    middle.Whole (fun _ => True) → upper.Whole (fun _ => True) →
    Below taint middle → Domain.leq middle upper → Below taint upper
  cross {root : RootId} {edge : AliasEdge heuristics} : edge ∈ aliases.edgesOf root →
    ∀ {tree greater : TaintTree heuristics}, tree.tree.Stores (Taint.Whole fun _ => True) →
      greater.tree.Stores (Taint.Whole fun _ => True) →
      (∀ path, Below (tree.view path) (greater.view path)) →
      ∀ path, Below ((tree.cross edge.properties).view path)
        ((greater.cross edge.properties).view path)

theorem AliasMap.Keeps.join {aliases : AliasMap heuristics}
    {Below : Taint heuristics → Taint heuristics → Prop} (keeps : aliases.Keeps Below)
    {left right greaterLeft greaterRight : TaintTree heuristics}
    (leftStores : left.tree.Stores (Taint.Whole fun _ => True))
    (rightStores : right.tree.Stores (Taint.Whole fun _ => True))
    (greaterLeftStores : greaterLeft.tree.Stores (Taint.Whole fun _ => True))
    (greaterRightStores : greaterRight.tree.Stores (Taint.Whole fun _ => True)) {path : Path}
    (leftBelow : Below (left.view path) (greaterLeft.view path))
    (rightBelow : Below (right.view path) (greaterRight.view path)) :
    Below ((left.join right).view path) ((greaterLeft.join greaterRight).view path) := by
  have goodUpper := TaintTree.good_view
    (TaintTree.stores_join greaterLeftStores greaterRightStores) path
  obtain ⟨leftCovered, rightCovered⟩ := (TaintTree.inside_view_join_iff (ideal_leq goodUpper)
    greaterLeftStores greaterRightStores path).mp (SemilatticeOn.leq_refl goodUpper)
  refine (TaintTree.inside_view_join_iff (keeps.ideal goodUpper) leftStores rightStores path).mpr
    ⟨?_, ?_⟩
  · exact keeps.raise (TaintTree.good_view leftStores path)
      (TaintTree.good_view greaterLeftStores path) goodUpper leftBelow leftCovered
  · exact keeps.raise (TaintTree.good_view rightStores path)
      (TaintTree.good_view greaterRightStores path) goodUpper rightBelow rightCovered

namespace Environment

section Kept

variable {Below : Taint heuristics → Taint heuristics → Prop} {aliases : AliasMap heuristics}
  (keeps : aliases.Keeps Below) {environment greater : Environment heuristics}
  (formed : environment.WellFormed) (greaterFormed : greater.WellFormed)

include keeps formed greaterFormed

theorem below_deepReadHops_of_targets {hops : Nat}
    (targets : ∀ target path, Below ((environment.targetTaint aliases hops target).view path)
      ((greater.targetTaint aliases hops target).view path))
    (location : Location) (path : Path) :
    Below ((environment.deepReadHops aliases (hops + 1) location).view path)
      ((greater.deepReadHops aliases (hops + 1) location).view path) := by
  have goodUpper := TaintTree.good_view
    (stores_whole_deepReadHops greaterFormed aliases (hops + 1) location) path
  have greaterShown := (inside_view_deepReadHops_iff_of_wellFormed greaterFormed aliases
    (ideal_leq goodUpper) hops location path).mp (SemilatticeOn.leq_refl goodUpper)
  refine (inside_view_deepReadHops_iff_of_wellFormed formed aliases (keeps.ideal goodUpper) hops
    location path).mpr ?_
  intro edge member rest reached
  have crossed := keeps.cross member (stores_whole_targetTaint formed aliases hops edge.target)
    (stores_whole_targetTaint greaterFormed aliases hops edge.target) (targets edge.target) rest
  exact keeps.raise (TaintTree.good_view (stores_whole_brings formed aliases hops edge) rest)
    (TaintTree.good_view (stores_whole_brings greaterFormed aliases hops edge) rest) goodUpper
    crossed (greaterShown edge member rest reached)

/-- By induction on the hops: a target is read, and with hops left it is read deeply as well. -/
theorem below_deepReadHops
    (readsBelow : ∀ target path,
      Below ((environment.read target).view path) ((greater.read target).view path))
    (hops : Nat) (location : Location) (path : Path) :
    Below ((environment.deepReadHops aliases hops location).view path)
      ((greater.deepReadHops aliases hops location).view path) := by
  induction hops generalizing location path with
  | zero =>
      exact readsBelow location path
  | succ hops inductionHypothesis =>
      refine below_deepReadHops_of_targets keeps formed greaterFormed ?_ location path
      intro target other
      cases hops with
      | zero =>
          exact readsBelow target other
      | succ further =>
          exact keeps.join (stores_whole_read formed target)
            (stores_whole_deepReadHops formed aliases (further + 1) target)
            (stores_whole_read greaterFormed target)
            (stores_whole_deepReadHops greaterFormed aliases (further + 1) target)
            (readsBelow target other) (inductionHypothesis target other)

end Kept

end Environment

/-! ## Greater except for marks -/

/-- No alias edge collapses the taint that crosses it. -/
def AliasMap.NeverCollapses (aliases : AliasMap heuristics) : Prop :=
  ∀ entry ∈ aliases.trees.entries, ∀ edge ∈ entry.2.aliasEdges,
    edge.properties.collapseDepth.shouldCollapse = false

instance : DecidablePred (@AliasMap.NeverCollapses heuristics) := fun aliases =>
  inferInstanceAs (Decidable (∀ entry ∈ aliases.trees.entries, ∀ edge ∈ entry.2.aliasEdges, _ = _))

theorem AliasMap.keeps_leq {aliases : AliasMap heuristics} (never : aliases.NeverCollapses) :
    aliases.Keeps fun taint upper => Domain.leq taint upper where
  ideal := ideal_leq
  raise good goodMiddle goodUpper := SemilatticeOn.leq_trans good goodMiddle goodUpper
  cross {root edge} member {tree greater} stores greaterStores below path := by
    have admitsMark := FeatureSet.admits_true (.ofMay [.viaCollapse])
    have admits := FeatureSet.admits_true edge.properties.features
    obtain ⟨targets, isBound, isListed⟩ := exists_tree_of_mem_edgesOf member
    have isUncollapsed := never (root, targets) isBound edge isListed
    rw [TaintTree.view_cross_of_uncollapsed admitsMark stores admits isUncollapsed,
      TaintTree.view_cross_of_uncollapsed admitsMark greaterStores admits isUncollapsed]
    exact (EdgeProperties.joinMapOn_stamp admits).monotone (TaintTree.good_view stores path)
      (TaintTree.good_view greaterStores path) (below path)

theorem AliasMap.keeps_leq_marked (aliases : AliasMap heuristics) :
    aliases.Keeps fun taint upper => Domain.leq taint (TaintTree.markCollapsed upper) where
  ideal whole := ideal_leq ((TaintTree.joinMapOn_markCollapsed (FeatureSet.admits_true _)).good whole)
  raise good goodMiddle goodUpper below covered := by
    have marks : JoinMapOn (@Taint.Whole heuristics fun _ => True) (Taint.Whole fun _ => True)
        TaintTree.markCollapsed := TaintTree.joinMapOn_markCollapsed (FeatureSet.admits_true _)
    exact SemilatticeOn.leq_trans good (marks.good goodMiddle) (marks.good goodUpper) below
      (marks.monotone goodMiddle goodUpper covered)
  cross {root edge} member {tree greater} stores greaterStores below path := by
    have admitsMark := FeatureSet.admits_true (.ofMay [.viaCollapse])
    have admits := FeatureSet.admits_true edge.properties.features
    have marks : JoinMapOn (@Taint.Whole heuristics fun _ => True) (Taint.Whole fun _ => True)
        TaintTree.markCollapsed := TaintTree.joinMapOn_markCollapsed admitsMark
    have stamps := EdgeProperties.joinMapOn_stamp admits
    have goodShown := TaintTree.good_view
      (TaintTree.stores_cross admitsMark greaterStores admits) path
    have goodUpper := marks.good goodShown
    have ideal := ideal_leq goodUpper
    -- The bound is marked, so marks do not matter below it.
    have holdsMarked (taint : Taint heuristics) (whole : taint.Whole fun _ => True) :=
      TaintTree.markCollapsed_leq_markCollapsed admitsMark whole goodShown
    have stamped (other : Path)
        (greaterCovered : Domain.leq (edge.properties.stamp (greater.view other))
          (TaintTree.markCollapsed ((greater.cross edge.properties).view path))) :
        Domain.leq (edge.properties.stamp (tree.view other))
          (TaintTree.markCollapsed ((greater.cross edge.properties).view path)) := by
      have good := TaintTree.good_view stores other
      have greaterGood := TaintTree.good_view greaterStores other
      have covered := stamps.monotone good (marks.good greaterGood) (below other)
      rw [TaintTree.stamp_markCollapsed admitsMark admits greaterGood] at covered
      exact ideal.of_leq (stamps.good good) (marks.good (stamps.good greaterGood)) covered
        (holdsMarked _ (stamps.good greaterGood) greaterCovered)
    have greaterCovered := (TaintTree.inside_view_cross_iff_of_marked admitsMark greaterStores admits
      ideal holdsMarked path).mp (TaintTree.leq_markCollapsed admitsMark goodShown)
    refine (TaintTree.inside_view_cross_iff_of_marked admitsMark stores admits ideal holdsMarked
      path).mpr ⟨stamped path greaterCovered.1, ?_⟩
    intro reached other
    exact stamped _ (greaterCovered.2 reached other)

namespace Environment

/-- A deep read of a greater environment is greater except for the marks of collapsed taint, and it is
greater as it stands if no alias edge collapses. -/
theorem deepReadHops_leq_marked_of_leq {environment greater : Environment heuristics}
    (formed : environment.WellFormed) (greaterFormed : greater.WellFormed)
    (covered : Domain.leq environment greater) (aliases : AliasMap heuristics) (hops : Nat)
    (location : Location) :
    (environment.deepReadHops aliases hops location).leq
      ((greater.deepReadHops aliases hops location).transform TaintTree.markCollapsed) ∧
    (aliases.NeverCollapses →
      (environment.deepReadHops aliases hops location).leq
        (greater.deepReadHops aliases hops location)) := by
  have admitsMark := FeatureSet.admits_true (.ofMay [.viaCollapse])
  have deepStores := stores_whole_deepReadHops formed aliases hops location
  have greaterStores := stores_whole_deepReadHops greaterFormed aliases hops location
  have marks : JoinMapOn (@Taint.Whole heuristics fun _ => True) (Taint.Whole fun _ => True)
      TaintTree.markCollapsed := TaintTree.joinMapOn_markCollapsed admitsMark
  have readsCovered := view_read_leq_of_leq formed greaterFormed covered
  constructor
  · rw [TaintTree.leq_iff_view_leq deepStores (TaintTree.stores_transform marks greaterStores)]
    intro path
    rw [TaintTree.view_transform marks greaterStores]
    refine below_deepReadHops aliases.keeps_leq_marked formed greaterFormed ?_ hops location path
    intro target other
    have good := TaintTree.good_view (stores_whole_read formed target) other
    have greaterGood := TaintTree.good_view (stores_whole_read greaterFormed target) other
    exact SemilatticeOn.leq_trans good greaterGood (marks.good greaterGood)
      (readsCovered target other) (TaintTree.leq_markCollapsed admitsMark greaterGood)
  · intro never
    rw [TaintTree.leq_iff_view_leq deepStores greaterStores]
    exact below_deepReadHops (AliasMap.keeps_leq never) formed greaterFormed readsCovered hops
      location

/-- A root that may stand for another one, behind an edge with some properties. -/
def aliasBehind (properties : EdgeProperties .standard) : AliasMap .standard :=
  ⟨(∅ : SortedMap RootId (PointsToTree .standard)).insert ⟨1⟩
    (.leaf (.ofEdges [(⟨⟨0⟩, []⟩, properties)]))⟩

/-- Taint of the elements of a root is covered by taint of the root, and stays so behind an edge that
does not collapse.  Behind one that does, it is covered except for its mark. -/
theorem deepReadHops_leq_marked_of_leq_elements :
    (binding TaintTree.elementsA).WellFormed ∧ (binding TaintTree.rootA).WellFormed ∧
    Domain.leq (binding TaintTree.elementsA) (binding TaintTree.rootA) ∧
    ((binding TaintTree.elementsA).deepReadHops (aliasBehind .alwaysCollapse) 1 ⟨⟨1⟩, []⟩).leq
      (((binding TaintTree.rootA).deepReadHops (aliasBehind .alwaysCollapse) 1
        ⟨⟨1⟩, []⟩).transform TaintTree.markCollapsed) ∧
    (aliasBehind .empty).NeverCollapses ∧
    ((binding TaintTree.elementsA).deepReadHops (aliasBehind .empty) 1 ⟨⟨1⟩, []⟩).leq
      ((binding TaintTree.rootA).deepReadHops (aliasBehind .empty) 1 ⟨⟨1⟩, []⟩) := by
  have formed : (binding TaintTree.elementsA).WellFormed := of_decide_eq_true (by cbv)
  have rootFormed : (binding TaintTree.rootA).WellFormed := of_decide_eq_true (by cbv)
  have covered : Domain.leq (binding TaintTree.elementsA) (binding TaintTree.rootA) := by cbv
  have never : (aliasBehind .empty).NeverCollapses := of_decide_eq_true (by cbv)
  exact ⟨formed, rootFormed, covered,
    (deepReadHops_leq_marked_of_leq formed rootFormed covered (aliasBehind .alwaysCollapse) 1 _).1,
    never,
    (deepReadHops_leq_marked_of_leq formed rootFormed covered (aliasBehind .empty) 1 _).2 never⟩

/-- The taint of the elements is moved upwards and marked; that of the root is not. -/
theorem deepReadHops_loses_mark :
    (binding TaintTree.elementsA).Normal ∧ (binding TaintTree.rootA).Normal ∧
    Domain.leq (binding TaintTree.elementsA) (binding TaintTree.rootA) ∧
    (aliasBehind .alwaysCollapse).Listed ∧ (aliasBehind .alwaysCollapse).WellFormed ∧
    ¬ ((binding TaintTree.elementsA).deepReadHops (aliasBehind .alwaysCollapse) 1 ⟨⟨1⟩, []⟩).leq
      ((binding TaintTree.rootA).deepReadHops (aliasBehind .alwaysCollapse) 1 ⟨⟨1⟩, []⟩) := by
  have elementsNormal : TaintTree.elementsA.Normal :=
    TaintTree.normal_ofEdges (of_decide_eq_true (by cbv))
  have rootNormal : TaintTree.rootA.Normal := TaintTree.normal_leaf (of_decide_eq_true (by cbv))
  have uncovered :
      ((binding TaintTree.elementsA).deepReadHops (aliasBehind .alwaysCollapse) 1 ⟨⟨1⟩, []⟩).leq
        ((binding TaintTree.rootA).deepReadHops (aliasBehind .alwaysCollapse) 1 ⟨⟨1⟩, []⟩) =
      false := by cbv
  exact ⟨normal_binding elementsNormal, normal_binding rootNormal, by cbv,
    of_decide_eq_true (by cbv), of_decide_eq_true (by cbv), Bool.eq_false_iff.mp uncovered⟩

end Environment

end AliasTaint
