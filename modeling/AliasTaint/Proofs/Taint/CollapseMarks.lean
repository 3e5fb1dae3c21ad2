import AliasTaint.Proofs.Taint.BoundedCollapse
import AliasTaint.Proofs.Value.Obtained

/-!
# Marks of equal trees

A collapse marks the values that it moves, and trees that are equal in the order may store different
values: a node can repeat taint that is shown above it.  So a collapse, and a widening that collapses,
can mark a kind in one tree and leave it unmarked in an equal one.

The mark is all that can differ.  Equal trees collapse to the same taint up to marks, and to the very
same taint exactly if every kind that is not marked yet where the collapse takes place is stored below
in both trees or in neither.
-/

namespace AliasTaint

open Domain

variable {heuristics : Heuristics}

/-! ## Features that may hold -/

namespace FeatureSet

variable {left right features : FeatureSet} {feature : Feature}

def MayHold (feature : Feature) : FeatureSet → Prop
  | .bottom => False
  | .value may _ => feature ∈ may
  | .top => True

theorem mayHold_join_iff :
    (join left right).MayHold feature ↔ left.MayHold feature ∨ right.MayHold feature := by
  cases left <;> cases right <;> simp [join, MayHold]

theorem ofMay_singleton (feature : Feature) :
    ∃ may, ofMay [feature] = .value may ∅ ∧ ∀ other, other ∈ may ↔ other = feature := by
  refine ⟨(SortedSet.ofList [feature]).union ∅, rfl, fun other => ?_⟩
  have nothing : other ∉ (∅ : SortedSet Feature) := nofun
  have isListed : other ∈ SortedSet.ofList [feature] ↔ other = feature :=
    SortedSet.mem_insertAll.trans ((or_iff_right nothing).trans List.mem_singleton)
  rw [SortedSet.mem_union, isListed, or_iff_left nothing]

theorem mayHold_add_ofMay (filled : features ≠ .bottom) (feature : Feature) :
    (add features (.ofMay [feature])).MayHold feature := by
  obtain ⟨marks, isMark, mem_marks_iff⟩ := ofMay_singleton feature
  rw [isMark]
  cases features with
  | bottom =>
      exact absurd rfl filled
  | top =>
      exact trivial
  | value may always =>
      exact SortedSet.mem_union.mpr (Or.inr ((mem_marks_iff feature).mpr rfl))

/-- Features that are the same once one more may hold are the same before, if it may hold of both or
of neither. -/
theorem eq_of_add_ofMay_eq (leftFilled : left ≠ .bottom) (rightFilled : right ≠ .bottom)
    (same : add left (.ofMay [feature]) = add right (.ofMay [feature]))
    (alike : left.MayHold feature ↔ right.MayHold feature) : left = right := by
  obtain ⟨marks, isMark, mem_marks_iff⟩ := ofMay_singleton feature
  rw [isMark] at same
  cases left with
  | bottom =>
      exact absurd rfl leftFilled
  | top =>
      cases right with
      | bottom =>
          exact absurd rfl rightFilled
      | top =>
          rfl
      | value otherMay otherAlways =>
          exact nomatch same
  | value may always =>
      cases right with
      | bottom =>
          exact absurd rfl rightFilled
      | top =>
          exact nomatch same
      | value otherMay otherAlways =>
          obtain ⟨sameMay, sameAlways⟩ := FeatureSet.value.inj same
          have mayAlike (other : Feature) : other ∈ may ↔ other ∈ otherMay := by
            by_cases isFeature : other = feature
            · rw [isFeature]
              exact alike
            · have inUnions : other ∈ may.union marks ↔ other ∈ otherMay.union marks := by
                rw [sameMay]
              simpa [SortedSet.mem_union, mem_marks_iff, isFeature] using inUnions
          have alwaysAlike (other : Feature) : other ∈ always ↔ other ∈ otherAlways := by
            have nothing : other ∉ (∅ : SortedSet Feature) := nofun
            have inUnions : other ∈ always.union ∅ ↔ other ∈ otherAlways.union ∅ := by
              rw [sameAlways]
            simpa [SortedSet.mem_union, nothing] using inUnions
          rw [SortedSet.ext_mem mayAlike, SortedSet.ext_mem alwaysAlike]

end FeatureSet

/-! ## Marked frames -/

namespace TaintFrame

theorem ideal_not_mayHold (feature : Feature) :
    Ideal (@WellFormed heuristics) fun frame => ¬ frame.features.MayHold feature where
  bottom := id
  join_iff {left right} leftFormed rightFormed := by
    rcases rightFormed with rfl | ⟨_, _, rightFilled, _⟩
    · exact (and_iff_left id).symm
    have rightNotBottom := isBottom_of_features rightFilled
    rcases leftFormed with rfl | ⟨_, _, leftFilled, _⟩
    · have onlyRight : Domain.join bottom right = right := by
        simp only [Domain.join, join, rightNotBottom]
        rfl
      rw [onlyRight]
      exact (and_iff_right id).symm
    · have leftNotBottom := isBottom_of_features leftFilled
      have joined : (Domain.join left right).features = left.features.join right.features := by
        simp [Domain.join, join, rightNotBottom, leftNotBottom]
      rw [joined, FeatureSet.mayHold_join_iff, not_or]

theorem eq_of_addFeatures_eq {feature : Feature} {left right : TaintFrame heuristics}
    (leftFormed : left.WellFormed) (rightFormed : right.WellFormed)
    (same : left.addFeatures (.ofMay [feature]) = right.addFeatures (.ofMay [feature]))
    (alike : left.features.MayHold feature ↔ right.features.MayHold feature) : left = right := by
  have sameFeatures := congrArg features same
  have samePositions := congrArg positions same
  rcases leftFormed with rfl | ⟨_, _, leftFilled, _⟩
  · rcases rightFormed with rfl | ⟨_, _, rightFilled, _⟩
    · rfl
    · rw [addFeatures_of_filled rightFilled] at sameFeatures
      exact absurd sameFeatures.symm (FeatureSet.add_ne_bottom rightFilled _)
  · rw [addFeatures_of_filled leftFilled] at sameFeatures samePositions
    rcases rightFormed with rfl | ⟨_, _, rightFilled, _⟩
    · exact absurd sameFeatures (FeatureSet.add_ne_bottom leftFilled _)
    · rw [addFeatures_of_filled rightFilled] at sameFeatures samePositions
      have parts := FeatureSet.eq_of_add_ofMay_eq leftFilled rightFilled sameFeatures alike
      cases left
      cases right
      simp_all

end TaintFrame

/-! ## Marked taint -/

namespace Taint

/-- Taint of a kind may have a feature. -/
def MayHave (kind : Kind) (feature : Feature) (taint : Taint heuristics) : Prop :=
  (taint.frame kind).features.MayHold feature

theorem ideal_not_mayHave (kind : Kind) (feature : Feature) :
    Ideal (@WellFormed heuristics) fun taint => ¬ taint.MayHave kind feature where
  bottom := id
  join_iff leftFormed rightFormed := by
    have unlimited : (TaintFrame.top : TaintFrame heuristics).features.MayHold feature := trivial
    exact (Partition.ideal_get (TaintFrame.ideal_not_mayHold feature) (not_not_intro unlimited)
      kind).join_iff leftFormed rightFormed

theorem lacks_iff_frame {taint : Taint heuristics} (formed : taint.WellFormed) {kind : Kind} :
    taint.Lacks kind ↔ taint.frame kind = .bottom := by
  obtain ⟨frames⟩ := taint
  cases frames with
  | top =>
      refine iff_of_false id ?_
      intro isNothing
      cases isNothing
  | sparse map =>
      change map.get? kind = none ↔ map.valueAt kind = Domain.bottom
      cases found : map.get? kind with
      | none =>
          rw [SortedMap.valueAt, found]
          exact iff_of_true rfl rfl
      | some frame =>
          obtain ⟨filled, _⟩ := SortedMap.Stores.get? formed found
          rw [SortedMap.valueAt_of_get? found]
          refine iff_of_false (Option.some_ne_none frame) ?_
          rintro rfl
          cases filled

/-- Well-formed taint is known from its frames, and from whether it is top. -/
theorem eq_of_frame_eq {left right : Taint heuristics}
    (leftFormed : left.WellFormed) (rightFormed : right.WellFormed)
    (sameTop : left.frames.isTop = right.frames.isTop)
    (sameFrames : ∀ kind, left.frame kind = right.frame kind) : left = right := by
  obtain ⟨leftFrames⟩ := left
  obtain ⟨rightFrames⟩ := right
  cases leftFrames with
  | top =>
      cases rightFrames with
      | top =>
          rfl
      | sparse rightMap =>
          exact nomatch sameTop
  | sparse leftMap =>
      cases rightFrames with
      | top =>
          exact nomatch sameTop
      | sparse rightMap =>
          exact congrArg (fun map => mk (.sparse map))
            (SortedMap.Stores.ext leftFormed rightFormed sameFrames)

end Taint

namespace TaintTree

section Marks

variable {taint other : Taint heuristics} (formed : taint.WellFormed)

include formed

theorem frame_markCollapsed (kind : Kind) :
    (markCollapsed taint).frame kind =
      (taint.frame kind).addFeatures (.ofMay [.viaCollapse]) :=
  Taint.frame_addFeatures wellFormed_mark nofun admits_mark formed kind

/-- The kinds of marked taint are marked. -/
theorem mayHave_markCollapsed_iff {kind : Kind} :
    (markCollapsed taint).MayHave kind .viaCollapse ↔ ¬ taint.Lacks kind := by
  rw [Taint.lacks_iff_frame formed, Taint.MayHave, frame_markCollapsed formed]
  rcases Taint.WellFormed.frame formed kind with isBottom | ⟨_, _, filled, _⟩
  · rw [isBottom]
    exact iff_of_false id (not_not_intro rfl)
  · rw [TaintFrame.addFeatures_of_filled filled]
    refine iff_of_true (FeatureSet.mayHold_add_ofMay filled _) ?_
    intro isBottom
    rw [isBottom] at filled
    exact filled rfl

/-- Taint that is the same up to marks is the same if the same kinds may be marked. -/
theorem eq_iff_of_markCollapsed_eq (otherFormed : other.WellFormed)
    (same : markCollapsed taint = markCollapsed other) :
    taint = other ↔
      ∀ kind, taint.MayHave kind .viaCollapse ↔ other.MayHave kind .viaCollapse := by
  constructor
  · rintro rfl kind
    exact Iff.rfl
  · intro alike
    have sameTop : taint.frames.isTop = other.frames.isTop := by
      rw [← Taint.isTop_addFeatures taint (.ofMay [.viaCollapse]),
        ← Taint.isTop_addFeatures other (.ofMay [.viaCollapse])]
      exact congrArg (fun marked => marked.frames.isTop) same
    refine Taint.eq_of_frame_eq formed otherFormed sameTop fun kind => ?_
    have sameMarked := congrArg (fun marked => marked.frame kind) same
    simp only [frame_markCollapsed formed, frame_markCollapsed otherFormed] at sameMarked
    exact TaintFrame.eq_of_addFeatures_eq (Taint.WellFormed.frame formed kind)
      (Taint.WellFormed.frame otherFormed kind) sameMarked (alike kind)

end Marks

/-! ## Collapses of equal trees -/

/-- Some value that is stored strictly below a path has a kind. -/
def StoresBelow (tree : TaintTree heuristics) (path : Path) (kind : Kind) : Prop :=
  ∃ taint ∈ tree.storedBelow path, ¬ taint.Lacks kind

/-- Every kind that is not marked at a path is stored below it in both trees or in neither. -/
def HoistsAlike (left right : TaintTree heuristics) (path : Path) : Prop :=
  ∀ kind, (left.view path).MayHave kind .viaCollapse ∨
    (left.StoresBelow path kind ↔ right.StoresBelow path kind)

/-- A kind is marked in a collapsed tree if it was marked at the height, or is stored below. -/
theorem mayHave_view_collapseDeeperThan_iff {tree : TaintTree heuristics}
    (formed : tree.WellFormed) {height : Nat} {path : Path} (reached : height ≤ path.length)
    (kind : Kind) :
    ((tree.collapseDeeperThan height).view path).MayHave kind .viaCollapse ↔
      (tree.view (path.take height)).MayHave kind .viaCollapse ∨
        tree.StoresBelow (path.take height) kind := by
  have unmarked := inside_view_collapseDeeperThan_iff formed
    (Taint.ideal_not_mayHave kind .viaCollapse) reached
  have storedMarked :
      (∀ taint ∈ tree.storedBelow (path.take height),
        ¬ (markCollapsed taint).MayHave kind .viaCollapse) ↔
      ¬ tree.StoresBelow (path.take height) kind := by
    simp only [StoresBelow, not_exists, not_and]
    refine forall₂_congr fun taint member => not_congr ?_
    exact mayHave_markCollapsed_iff (wellFormed_storedBelow formed _ taint member)
  rw [storedMarked, ← not_or] at unmarked
  exact not_iff_not.mp unmarked

/-- Up to marks, a collapsed tree shows what was shown at the height and everywhere below. -/
theorem inside_markCollapsed_view_iff {tree : TaintTree heuristics} (formed : tree.WellFormed)
    {Inside : Taint heuristics → Prop} (ideal : Ideal Taint.WellFormed Inside)
    {height : Nat} {path : Path} (reached : height ≤ path.length) :
    Inside (markCollapsed ((tree.collapseDeeperThan height).view path)) ↔
      ∀ below, Inside (markCollapsed (tree.view (path.take height ++ below))) := by
  have marks := ideal.comap joinMapOn_mark
  have markedTwice (taint : Taint heuristics) (member : taint ∈ tree.storedBelow (path.take height)) :
      Inside (markCollapsed (markCollapsed taint)) ↔ Inside (markCollapsed taint) := by
    rw [markCollapsed_twice admits_mark (wellFormed_storedBelow formed _ taint member)]
  rw [inside_view_collapseDeeperThan_iff formed marks reached, forall₂_congr markedTwice]
  rw [forall_mem_storedBelow_iff (fun taint => Inside (markCollapsed taint)) marks.bottom]
  simp only [inside_view_iff_stored formed marks]
  constructor
  · rintro ⟨shown, belowShown⟩ below above isBeginning
    -- A beginning of the path stops above the height, or goes on below it.
    rcases List.prefix_or_prefix_of_prefix isBeginning (List.prefix_append _ below) with
      stops | ⟨rest, rfl⟩
    · exact shown above stops
    · rcases eq_or_ne rest [] with rfl | goesOn
      · exact shown _ (List.append_nil _ ▸ List.prefix_rfl)
      · exact belowShown rest goesOn
  · intro all
    refine ⟨fun above isBeginning => all [] above ?_, fun below _ => all below _ List.prefix_rfl⟩
    rwa [List.append_nil]

section Equal

variable {left right : TaintTree heuristics}
  (leftFormed : left.WellFormed) (rightFormed : right.WellFormed)
  (sameViews : ∀ path, left.view path = right.view path)

include leftFormed rightFormed sameViews

theorem markCollapsed_view_collapseDeeperThan_eq (height : Nat) (path : Path) :
    markCollapsed ((left.collapseDeeperThan height).view path) =
      markCollapsed ((right.collapseDeeperThan height).view path) := by
  have leftShown := good_view (wellFormed_collapseDeeperThan leftFormed height) path
  have rightShown := good_view (wellFormed_collapseDeeperThan rightFormed height) path
  rcases Nat.lt_or_ge path.length height with short | reached
  · rw [view_collapseDeeperThan_of_lt leftFormed short,
      view_collapseDeeperThan_of_lt rightFormed short, sameViews]
  · refine SemilatticeOn.eq_of_leq_iff (joinMapOn_mark.good leftShown)
      (joinMapOn_mark.good rightShown) fun upper goodUpper => ?_
    have ideal := ideal_leq goodUpper
    rw [inside_markCollapsed_view_iff leftFormed ideal reached,
      inside_markCollapsed_view_iff rightFormed ideal reached]
    simp only [sameViews]

theorem view_collapseDeeperThan_eq_iff {height : Nat} {path : Path}
    (reached : height ≤ path.length) :
    (left.collapseDeeperThan height).view path = (right.collapseDeeperThan height).view path ↔
      left.HoistsAlike right (path.take height) := by
  have leftShown := good_view (wellFormed_collapseDeeperThan leftFormed height) path
  have rightShown := good_view (wellFormed_collapseDeeperThan rightFormed height) path
  rw [eq_iff_of_markCollapsed_eq leftShown rightShown
    (markCollapsed_view_collapseDeeperThan_eq leftFormed rightFormed sameViews height path)]
  refine forall_congr' fun kind => ?_
  rw [mayHave_view_collapseDeeperThan_iff leftFormed reached,
    mayHave_view_collapseDeeperThan_iff rightFormed reached, ← sameViews]
  by_cases marked : (left.view (path.take height)).MayHave kind .viaCollapse <;> simp [marked]

/-- Equal trees show the same after a collapse exactly if they hoist alike at its height. -/
theorem equals_collapseDeeperThan_iff (height : Nat) :
    equals (left.collapseDeeperThan height) (right.collapseDeeperThan height) ↔
      ∀ path : Path, path.length = height → left.HoistsAlike right path := by
  rw [equals_iff_view_eq (wellFormed_collapseDeeperThan leftFormed height)
    (wellFormed_collapseDeeperThan rightFormed height)]
  have same_iff {path : Path} (reached : height ≤ path.length) :=
    view_collapseDeeperThan_eq_iff leftFormed rightFormed sameViews reached
  constructor
  · intro same path atHeight
    have hoisted := (same_iff (Nat.le_of_eq atHeight.symm)).mp (same path)
    rwa [List.take_of_length_le (Nat.le_of_eq atHeight)] at hoisted
  · intro alike path
    rcases Nat.lt_or_ge path.length height with short | reached
    · rw [view_collapseDeeperThan_of_lt leftFormed short,
        view_collapseDeeperThan_of_lt rightFormed short, sameViews]
    · exact (same_iff reached).mpr (alike _ (List.length_take_of_le reached))

theorem view_join_eq_of_views {other : TaintTree heuristics} (otherFormed : other.WellFormed)
    (path : Path) : (left.join other).view path = (right.join other).view path := by
  refine SemilatticeOn.eq_of_leq_iff (good_view (stores_join leftFormed otherFormed) path)
    (good_view (stores_join rightFormed otherFormed) path) fun upper goodUpper => ?_
  have ideal := ideal_leq goodUpper
  rw [inside_view_join_iff ideal leftFormed otherFormed,
    inside_view_join_iff ideal rightFormed otherFormed, sameViews]

end Equal

/-- The collapse of a tree is what its root shows when everything is moved there. -/
theorem collapse_eq_view {tree : TaintTree heuristics} (formed : tree.WellFormed) :
    tree.collapse = (tree.collapseDeeperThan 0).view [] := by
  have gathered : tree.tree.node.flattenAt markCollapsed 0 = Node.leaf tree.collapse :=
    Node.flattenAt_zero markCollapsed tree.tree.node
  have ordered := Node.Ordered.flattenAt markCollapsed _ 0 tree.tree.ordered
  have stores : (tree.tree.node.flattenAt markCollapsed 0).Stores Taint.WellFormed :=
    Node.Stores.flattenAt joinMapOn_mark formed 0
  have collapseFormed : tree.collapse.WellFormed := by
    rw [gathered] at stores
    exact stores.value
  refine (Node.eq_view_of_allAlong_iff (wellFormed_collapseDeeperThan formed 0) collapseFormed
    fun upper goodUpper => ?_).symm
  refine (Node.allAlong_normalize_iff (ideal_leq goodUpper) ordered stores []).trans ?_
  rw [gathered]
  exact Iff.rfl

theorem Normal.widen_eq_collapseDeeperThan {left right : TaintTree heuristics}
    (leftNormal : left.Normal) (rightNormal : right.Normal) :
    left.widen right = (left.join right).collapseDeeperThan heuristics.maxTreeHeight.toNat := by
  rw [widen_eq]
  split
  · rfl
  · rename_i low
    exact ((leftNormal.join rightNormal).collapseDeeperThan_eq (Nat.le_of_not_lt low)).symm

theorem not_storesBelow {tree : TaintTree heuristics} {path : Path}
    (nothing : ∀ below, below ≠ [] → Domain.isBottom (tree.stored (path ++ below)))
    (kind : Kind) : ¬ tree.StoresBelow path kind := by
  rintro ⟨_, member, _⟩
  obtain ⟨below, nonempty, rfl, filled⟩ := mem_storedBelow_iff.mp member
  exact nomatch (nothing below nonempty).symm.trans filled

/-- Nothing is moved to a path as long as the height of a tree, nor in an equal tree. -/
theorem hoistsAlike_of_height_le {left right : TaintTree heuristics}
    (leftNormal : left.Normal) (rightNormal : right.Normal)
    (sameViews : ∀ path, left.view path = right.view path) {path : Path}
    (low : left.height ≤ path.length) : left.HoistsAlike right path := by
  have nothing (below : Path) (nonempty : below ≠ []) :
      Domain.isBottom (left.stored (path ++ below)) := by
    have positive := List.length_pos_iff.mpr nonempty
    have beyond : left.height < (path ++ below).length := by
      rw [List.length_append]
      omega
    rw [stored, Node.stored_of_height_lt left.tree.ordered beyond]
    rfl
  have sameFilled := Node.isBottom_stored_eq_of_views leftNormal.stores rightNormal.stores
    leftNormal.normal rightNormal.normal sameViews
  have nothingEither (below : Path) (nonempty : below ≠ []) :
      Domain.isBottom (right.stored (path ++ below)) :=
    (sameFilled _).symm.trans (nothing below nonempty)
  exact fun kind =>
    Or.inr (iff_of_false (not_storesBelow nothing kind) (not_storesBelow nothingEither kind))

/-- Equal trees collapse, and are widened, to the same up to marks.  Marks included, they collapse to
the same exactly if they hoist alike at the root, and are widened to equal trees exactly if their
joins hoist alike at the height limit, which is so if the joins do not exceed it. -/
theorem collapse_eq_iff_hoistsAlike {left right other : TaintTree heuristics}
    (leftProduced : left.Produced) (rightProduced : right.Produced)
    (otherProduced : other.Produced) (same : equals left right) :
    markCollapsed left.collapse = markCollapsed right.collapse ∧
    (left.collapse = right.collapse ↔ left.HoistsAlike right []) ∧
    (∀ path, markCollapsed ((left.widen other).view path) =
      markCollapsed ((right.widen other).view path)) ∧
    (equals (left.widen other) (right.widen other) ↔
      ∀ path : Path, path.length = heuristics.maxTreeHeight.toNat →
        (left.join other).HoistsAlike (right.join other) path) ∧
    ((left.join other).height ≤ heuristics.maxTreeHeight.toNat →
      equals (left.widen other) (right.widen other)) := by
  have leftNormal := leftProduced.normal
  have rightNormal := rightProduced.normal
  have otherNormal := otherProduced.normal
  have leftFormed := leftNormal.wellFormed
  have rightFormed := rightNormal.wellFormed
  have sameViews := (equals_iff_view_eq leftFormed rightFormed).mp same
  have leftJoin := leftNormal.join otherNormal
  have rightJoin := rightNormal.join otherNormal
  have sameJoins := view_join_eq_of_views leftFormed rightFormed sameViews otherNormal.wellFormed
  have widened_iff := equals_collapseDeeperThan_iff leftJoin.wellFormed rightJoin.wellFormed
    sameJoins heuristics.maxTreeHeight.toNat
  rw [collapse_eq_view leftFormed, collapse_eq_view rightFormed,
    leftNormal.widen_eq_collapseDeeperThan otherNormal,
    rightNormal.widen_eq_collapseDeeperThan otherNormal]
  refine ⟨markCollapsed_view_collapseDeeperThan_eq leftFormed rightFormed sameViews 0 [],
    view_collapseDeeperThan_eq_iff leftFormed rightFormed sameViews (Nat.le_refl 0),
    markCollapsed_view_collapseDeeperThan_eq leftJoin.wellFormed rightJoin.wellFormed sameJoins _,
    widened_iff, ?low⟩
  case low =>
    intro low
    refine widened_iff.mpr fun path atHeight => ?_
    exact hoistsAlike_of_height_le leftJoin rightJoin sameJoins (atHeight ▸ low)

theorem collapse_eq_iff_hoistsAlike_elements :
    (ofEdges rootBetween).Produced ∧ (ofEdges rootLast).Produced ∧ rootA.Produced ∧
    equals (ofEdges rootBetween) (ofEdges rootLast) ∧
    markCollapsed (ofEdges rootBetween).collapse = markCollapsed (ofEdges rootLast).collapse ∧
    ¬ (ofEdges rootBetween).HoistsAlike (ofEdges rootLast) [] ∧
    equals ((ofEdges rootBetween).widen rootA) ((ofEdges rootLast).widen rootA) := by
  have betweenProduced : (ofEdges rootBetween).Produced := .ofEdges (of_decide_eq_true (by cbv))
  have lastProduced : (ofEdges rootLast).Produced := .ofEdges (of_decide_eq_true (by cbv))
  have rootProduced : rootA.Produced := .leaf (of_decide_eq_true (by cbv))
  have same : equals (ofEdges rootBetween) (ofEdges rootLast) := by cbv
  have marksDiffer : (ofEdges rootBetween).collapse ≠ (ofEdges rootLast).collapse :=
    of_decide_eq_false (by cbv)
  have low : ((ofEdges rootBetween).join rootA).height ≤ Heuristics.standard.maxTreeHeight.toNat :=
    of_decide_eq_true (by cbv)
  obtain ⟨sameMarked, collapse_iff, _, _, widened⟩ :=
    collapse_eq_iff_hoistsAlike betweenProduced lastProduced rootProduced same
  exact ⟨betweenProduced, lastProduced, rootProduced, same, sameMarked,
    mt collapse_iff.mpr marksDiffer, widened low⟩

/-- The edges with their paths moved to the height limit. -/
def atHeightLimit (edges : List (Path × Taint .standard)) : List (Path × Taint .standard) :=
  edges.map fun edge =>
    (List.replicate Heuristics.standard.maxTreeHeight.toNat .anyIndex ++ edge.1, edge.2)

/-- Trees built from the same edges in another order are equal in the order, but collapse to different
taint, and at the height limit they are widened to trees that are not equal. -/
theorem equals_marked_apart :
    (ofEdges rootBetween).Produced ∧ (ofEdges rootLast).Produced ∧
    equals (ofEdges rootBetween) (ofEdges rootLast) ∧
    (ofEdges rootBetween).collapse ≠ (ofEdges rootLast).collapse ∧
    (ofEdges (atHeightLimit rootBetween)).Produced ∧ (ofEdges (atHeightLimit rootLast)).Produced ∧
    (leaf .bottom : TaintTree .standard).Produced ∧
    equals (ofEdges (atHeightLimit rootBetween)) (ofEdges (atHeightLimit rootLast)) ∧
    ¬ equals ((ofEdges (atHeightLimit rootBetween)).widen (leaf .bottom))
      ((ofEdges (atHeightLimit rootLast)).widen (leaf .bottom)) := by
  refine ⟨.ofEdges (of_decide_eq_true (by cbv)), .ofEdges (of_decide_eq_true (by cbv)), by cbv,
    of_decide_eq_false (by cbv), .ofEdges (of_decide_eq_true (by cbv)),
    .ofEdges (of_decide_eq_true (by cbv)), .leaf JoinClosed.bottom, by cbv, ?_⟩
  exact of_decide_eq_false (by cbv)

end TaintTree

end AliasTaint
