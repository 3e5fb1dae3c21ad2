import AliasTaint.Proofs.PointsTo.Recording
import AliasTaint.Proofs.Taint.Cross
import AliasTaint.Proofs.Value.Obtained

/-!
# Stamping with empty properties

The empty properties add no position and no feature, and do not collapse.  To stamp them on an alias
edge leaves the edge as it is, unless the edge was made without a collapse depth: such an edge gets
the depth that stands for no collapse.  Taint that crosses the edge does not notice, since neither
depth collapses anything.

The same holds of points-to sets, whose edges are all stamped, and of points-to trees, where the edges
of the root are stamped.
-/

namespace AliasTaint

open Domain

variable {heuristics : Heuristics}

/-! ## Depths -/

namespace CollapseDepth

theorem join_noCollapse_eq_self_iff {depth : CollapseDepth} :
    depth.join .noCollapse = depth ↔ depth ≠ .bottom := by
  cases depth with
  | bottom =>
      exact iff_of_false nofun fun filled => filled rfl
  | level number =>
      have smallest : number ≤ unlimited :=
        UInt32.le_iff_toNat_le.mpr (Nat.le_of_lt_succ number.toNat_lt)
      refine iff_of_true ?_ nofun
      simp [join, noCollapse, smallest]

theorem collapseAt?_join_noCollapse (depth : CollapseDepth) :
    (depth.join .noCollapse).collapseAt? = depth.collapseAt? := by
  by_cases missing : depth = .bottom
  · rw [missing]
    rfl
  · rw [join_noCollapse_eq_self_iff.mpr missing]

end CollapseDepth

/-! ## Edges -/

namespace EdgeProperties

/-- The empty properties change nothing but a missing depth. -/
theorem Whole.addProperties_empty {edge : EdgeProperties heuristics} (whole : edge.Whole)
    (filled : edge ≠ .bottom) :
    edge.addProperties .empty =
      { edge with collapseDepth := edge.collapseDepth.join .noCollapse } := by
  obtain ⟨positionsFormed, _, positionsFilled, featuresFilled⟩ := whole.resolve_left filled
  have notBottom := isBottom_of_positions positionsFilled
  have samePositions : edge.positions.addAll .empty = edge.positions :=
    PositionSet.addAll_eq_self positionsFormed rfl
  have sameFeatures : edge.features.add .empty = edge.features :=
    FeatureSet.add_eq_self rfl rfl featuresFilled
  simp only [EdgeProperties.addProperties, notBottom, empty, ofCollapseDepth, samePositions,
    sameFeatures]
  rfl

theorem bottom_addProperties (further : EdgeProperties heuristics) :
    bottom.addProperties further = bottom :=
  rfl

theorem Whole.addProperties_empty_eq_self_iff {edge : EdgeProperties heuristics}
    (whole : edge.Whole) :
    edge.addProperties .empty = edge ↔ edge = .bottom ∨ edge.collapseDepth ≠ .bottom := by
  by_cases isNothing : edge = .bottom
  · rw [isNothing]
    exact iff_of_true rfl (Or.inl rfl)
  · rw [whole.addProperties_empty isNothing, or_iff_right isNothing,
      ← CollapseDepth.join_noCollapse_eq_self_iff]
    constructor
    · exact congrArg collapseDepth
    · intro sameDepth
      rw [sameDepth]

theorem Whole.cross_addProperties_empty {edge : EdgeProperties heuristics} (whole : edge.Whole)
    (tree : TaintTree heuristics) : tree.cross (edge.addProperties .empty) = tree.cross edge := by
  by_cases isNothing : edge = .bottom
  · rw [isNothing, bottom_addProperties]
  · rw [whole.addProperties_empty isNothing, TaintTree.cross_eq, TaintTree.cross_eq]
    simp only [TaintTree.collapsedAt, CollapseDepth.collapseAt?_join_noCollapse]
    rfl

end EdgeProperties

/-! ## Points-to sets -/

namespace PointsToSet

instance : ClosedDomain (PointsToSet.Obtained heuristics) where
  bottom := .bottom
  join left right := .combine .join left right
  widen left right := .combine .widen left right
  meet left right := .combine .meet left right
  narrow left right := .combine .narrow left right

instance : JoinClosed (PointsToSet.Obtained heuristics) where
  bottom := .bottom
  join left right := .combine .join left right

theorem Whole.withProperties_empty_eq_self_iff {set : PointsToSet heuristics} (whole : set.Whole) :
    set.withProperties .empty = set ↔
      ∀ binding ∈ set.edges, binding.2.collapseDepth ≠ .bottom := by
  have targets_iff : set.withProperties .empty = set ↔
      (set.targets.transform fun edge => edge.addProperties .empty) = set.targets :=
    ⟨congrArg targets, congrArg mk⟩
  rw [targets_iff, Partition.transform_eq_self_iff whole]
  refine forall₂_congr fun binding member => ?_
  obtain ⟨filled, edgeWhole⟩ := Partition.WellFormed.bound whole binding member
  rw [edgeWhole.addProperties_empty_eq_self_iff]
  refine or_iff_right ?_
  intro isNothing
  rw [isNothing] at filled
  exact nomatch filled

/-- A set without bottom edges is covered by bottom only if it is bottom. -/
theorem Whole.eq_bottom_of_leq {set : PointsToSet heuristics} (whole : set.Whole)
    (covered : Domain.leq set Domain.bottom) : set = Domain.bottom :=
  congrArg mk (Partition.WellFormed.eq_empty_of_leq whole covered)

end PointsToSet

/-! ## Points-to trees -/

namespace PointsToTree

/-- The points-to trees that an analysis can obtain. -/
inductive Obtained : PointsToTree heuristics → Prop where
  | leaf {set : PointsToSet heuristics} (obtained : PointsToSet.Obtained heuristics set) :
      Obtained (.leaf set)
  | ofEdges {edges : List (Path × PointsToSet heuristics)}
      (obtained : ∀ edge ∈ edges, PointsToSet.Obtained heuristics edge.2) :
      Obtained (.ofEdges edges)
  | write {tree : PointsToTree heuristics} {set : PointsToSet heuristics}
      (obtained : Obtained tree) (path : Path) (setObtained : PointsToSet.Obtained heuristics set)
      (kind : UpdateKind) : Obtained (tree.write path set kind)
  | writeTree {tree grafted : PointsToTree heuristics}
      (obtained : Obtained tree) (path : Path) (graftedObtained : Obtained grafted)
      (kind : UpdateKind) : Obtained (tree.writeTree path grafted kind)
  | transform {tree : PointsToTree heuristics}
      {change : PointsToSet heuristics → PointsToSet heuristics} (obtained : Obtained tree)
      (keeps : ∀ set, PointsToSet.Obtained heuristics set →
        PointsToSet.Obtained heuristics (change set)) :
      Obtained (tree.transform change)
  | withProperties {tree : PointsToTree heuristics} {edge : EdgeProperties heuristics}
      (obtained : Obtained tree) (edgeObtained : EdgeProperties.Obtained heuristics edge) :
      Obtained (tree.withProperties edge)
  | join {left right : PointsToTree heuristics}
      (leftObtained : Obtained left) (rightObtained : Obtained right) : Obtained (left.join right)
  | widen {left right widened : PointsToTree heuristics}
      (leftObtained : Obtained left) (rightObtained : Obtained right)
      (isWidened : left.widen right = .ok widened) : Obtained widened
  | meet {left right : PointsToTree heuristics}
      (leftObtained : Obtained left) (rightObtained : Obtained right) : Obtained (left.meet right)
  | narrow {left right : PointsToTree heuristics}
      (leftObtained : Obtained left) (rightObtained : Obtained right) :
      Obtained (left.narrow right)
  | rawRead {tree : PointsToTree heuristics} (obtained : Obtained tree) (path : Path) :
      Obtained (tree.rawRead path)
  | rawReadLongest {tree : PointsToTree heuristics} (obtained : Obtained tree) (path : Path) :
      Obtained (tree.rawReadLongest path).2

/-- The tree with another set at its root. -/
def withRoot (tree : PointsToTree heuristics) (set : PointsToSet heuristics) :
    PointsToTree heuristics :=
  ⟨⟨.mk set tree.tree.node.children, .mk tree.tree.ordered.increasing tree.tree.ordered.children⟩⟩

theorem withRoot_root (tree : PointsToTree heuristics) : tree.withRoot tree.root = tree := by
  obtain ⟨⟨⟨set, children⟩, ordered⟩⟩ := tree
  rfl

theorem withRoot_eq_self_iff {tree : PointsToTree heuristics} {set : PointsToSet heuristics} :
    tree.withRoot set = tree ↔ set = tree.root := by
  constructor
  · exact congrArg root
  · rintro rfl
    exact tree.withRoot_root

theorem targetsAt_withRoot {tree : PointsToTree heuristics} {set : PointsToSet heuristics}
    {path : Path} (nonempty : path ≠ []) :
    (tree.withRoot set).targetsAt path = tree.targetsAt path := by
  cases path with
  | nil =>
      exact absurd rfl nonempty
  | cons label path =>
      rfl

/-- All stored sets can be obtained, and no child stores nothing. -/
structure Sound (tree : PointsToTree heuristics) : Prop where
  stores : tree.tree.Stores (PointsToSet.Obtained heuristics)
  pruned : tree.tree.node.Pruned

theorem sound_leaf {set : PointsToSet heuristics} (obtained : PointsToSet.Obtained heuristics set) :
    (leaf set).Sound :=
  ⟨Node.stores_leaf obtained, Node.pruned_leaf set⟩

namespace Sound

variable {tree left right : PointsToTree heuristics}

/-- Nothing sinks in a points-to tree, and no set without bottom edges is covered by bottom. -/
theorem normal (sound : tree.Sound) : tree.Normal := by
  refine normal_iff.mpr ⟨sound.pruned, fresh_nothing_iff.mpr ?_⟩
  intro path covered
  have obtained : PointsToSet.Obtained heuristics (tree.targetsAt path) :=
    Node.Stores.stored .bottom sound.stores path
  exact obtained.whole.eq_bottom_of_leq covered

theorem writeTree (sound : tree.Sound) (path : Path) {grafted : PointsToTree heuristics}
    (graftedSound : grafted.Sound) (kind : UpdateKind) :
    (tree.writeTree path grafted kind).Sound where
  stores := Node.Stores.graftUnder policy.sink kind grafted.tree.ordered tree.tree.ordered
    graftedSound.stores sound.stores Domain.bottom path
  pruned := Node.Pruned.graftUnder policy.sink grafted.tree.ordered graftedSound.pruned path
    Domain.bottom tree.tree.ordered sound.pruned

theorem merge (leftSound : left.Sound) (rightSound : right.Sound) (op : MergeOp) :
    (PointsToTree.mk (left.tree.merge policy.sink op right.tree)).Sound where
  stores := Tree.stores_merge (fun _ _ => .bottom) op leftSound.stores rightSound.stores
  pruned := Node.Pruned.merge policy.sink op .nothing left.tree.ordered right.tree.ordered
    leftSound.pruned rightSound.pruned

theorem rawRead (sound : tree.Sound) (path : Path) : (tree.rawRead path).Sound :=
  ⟨Node.Stores.rawRead sound.stores path, sound.pruned.rawRead path⟩

theorem transform (sound : tree.Sound) {change : PointsToSet heuristics → PointsToSet heuristics}
    (keeps : ∀ set, PointsToSet.Obtained heuristics set →
      PointsToSet.Obtained heuristics (change set)) :
    (tree.transform change).Sound := by
  have ordered := Node.Ordered.mapValues change _ tree.tree.ordered
  exact ⟨Node.Stores.normalize policy.sink ordered
    (Node.Stores.mapValues (fun {_} => keeps _) sound.stores),
    Node.pruned_normalize policy.sink ordered⟩

theorem withRoot (sound : tree.Sound) {set : PointsToSet heuristics}
    (obtained : PointsToSet.Obtained heuristics set) : (tree.withRoot set).Sound := by
  have childrenPruned := Node.pruned_iff.mp sound.pruned
  exact ⟨Node.stores_mk.mpr ⟨obtained, sound.stores.children⟩,
    Node.pruned_iff.mpr fun label child found => childrenPruned label child found⟩

/-- Stamping the edges of the root changes nothing else. -/
theorem withProperties_eq_withRoot (sound : tree.Sound) {edge : EdgeProperties heuristics}
    (edgeObtained : EdgeProperties.Obtained heuristics edge) :
    tree.withProperties edge = tree.withRoot (tree.root.withProperties edge) := by
  have stampedSound : (tree.withRoot (tree.root.withProperties edge)).Sound :=
    sound.withRoot (.withProperties sound.stores.value edgeObtained)
  have unchanged := Node.NormalUnder.normalize_eq (tree.withRoot _).tree.ordered stampedSound.normal
  refine congrArg PointsToTree.mk (Tree.ext_node ?_)
  -- Only a tree with children is normalized again, and it is still normal.
  unfold Tree.updateRoot
  split
  · rfl
  · exact unchanged

theorem withProperties (sound : tree.Sound) {edge : EdgeProperties heuristics}
    (edgeObtained : EdgeProperties.Obtained heuristics edge) : (tree.withProperties edge).Sound := by
  rw [sound.withProperties_eq_withRoot edgeObtained]
  exact sound.withRoot (.withProperties sound.stores.value edgeObtained)

end Sound

theorem sound_ofEdges {edges : List (Path × PointsToSet heuristics)}
    (obtained : ∀ edge ∈ edges, PointsToSet.Obtained heuristics edge.2) :
    (ofEdges edges).Sound := by
  unfold ofEdges
  refine List.foldlRecOn (motive := fun tree => Sound ⟨tree⟩) edges _ (sound_leaf .bottom) ?_
  intro tree sound edge member
  exact Sound.writeTree sound edge.1 (sound_leaf (obtained edge member)) .weak

-- By induction on how the tree was obtained; the four merges share one lemma.
theorem Obtained.sound {tree : PointsToTree heuristics} (obtained : tree.Obtained) : tree.Sound := by
  induction obtained with
  | leaf obtained =>
      exact sound_leaf obtained
  | ofEdges obtained =>
      exact sound_ofEdges obtained
  | write _ path setObtained kind sound =>
      exact sound.writeTree path (sound_leaf setObtained) kind
  | writeTree _ path _ kind sound graftedSound =>
      exact sound.writeTree path graftedSound kind
  | transform _ keeps sound =>
      exact sound.transform keeps
  | withProperties _ edgeObtained sound =>
      exact sound.withProperties edgeObtained
  | join _ _ leftSound rightSound =>
      exact leftSound.merge rightSound .join
  | widen _ _ isWidened leftSound rightSound =>
      cases isWidened
      exact leftSound.merge rightSound .widen
  | meet _ _ leftSound rightSound =>
      exact leftSound.merge rightSound .meet
  | narrow _ _ leftSound rightSound =>
      exact leftSound.merge rightSound .narrow
  | rawRead _ path sound =>
      exact sound.rawRead path
  | rawReadLongest _ path sound =>
      exact sound.rawRead _

end PointsToTree

/-! ## What the empty properties change -/

/-- The empty properties leave an edge as it is exactly if it is bottom or has a collapse depth, and
any other edge gets the depth that stands for no collapse; taint crosses the edge as before.  A
points-to set stays the same exactly if all its edges have a collapse depth, and a points-to tree if
all edges of its root do; below the root nothing changes. -/
theorem empty_stamp_eq_self_iff (heuristics : Heuristics) :
    (∀ edge, EdgeProperties.Obtained heuristics edge →
      (edge.addProperties .empty = edge ↔ edge = .bottom ∨ edge.collapseDepth ≠ .bottom) ∧
      (edge ≠ .bottom → edge.collapseDepth = .bottom →
        edge.addProperties .empty = { edge with collapseDepth := .noCollapse }) ∧
      ∀ tree : TaintTree heuristics, tree.cross (edge.addProperties .empty) = tree.cross edge) ∧
    (∀ set, PointsToSet.Obtained heuristics set →
      (set.withProperties .empty = set ↔
        ∀ binding ∈ set.edges, binding.2.collapseDepth ≠ .bottom)) ∧
    (∀ tree : PointsToTree heuristics, tree.Obtained →
      (tree.withProperties .empty = tree ↔
        ∀ binding ∈ tree.root.edges, binding.2.collapseDepth ≠ .bottom) ∧
      (tree.withProperties .empty).root = tree.root.withProperties .empty ∧
      ∀ path : Path, path ≠ [] →
        (tree.withProperties .empty).targetsAt path = tree.targetsAt path) := by
  refine ⟨?edges, ?sets, ?trees⟩
  case edges =>
    intro edge obtained
    refine ⟨obtained.whole.addProperties_empty_eq_self_iff, ?_,
      obtained.whole.cross_addProperties_empty⟩
    intro filled missing
    rw [obtained.whole.addProperties_empty filled, missing]
    rfl
  case sets =>
    intro set obtained
    exact obtained.whole.withProperties_empty_eq_self_iff
  case trees =>
    intro tree obtained
    have sound := obtained.sound
    have rootObtained : PointsToSet.Obtained heuristics tree.root := sound.stores.value
    rw [sound.withProperties_eq_withRoot .empty]
    refine ⟨?_, rfl, fun path => PointsToTree.targetsAt_withRoot⟩
    rw [PointsToTree.withRoot_eq_self_iff]
    exact rootObtained.whole.withProperties_empty_eq_self_iff

/-- An edge with a position and no collapse depth. -/
def depthlessEdge : EdgeProperties .standard :=
  (EdgeProperties.ofCollapseDepth .bottom).addPosition ⟨"main", 7⟩

/-- Two targets, one of them behind the edge without a collapse depth. -/
def depthlessTargets : PointsToSet .standard :=
  (PointsToSet.single ⟨⟨1⟩, []⟩ depthlessEdge).insert ⟨⟨2⟩, [.anyIndex]⟩ .alwaysCollapse

/-- A tree that stores those targets below its root. -/
def depthlessBelow : PointsToTree .standard :=
  (PointsToTree.leaf (.single ⟨⟨3⟩, []⟩ .empty)).write [.anyIndex] depthlessTargets .weak

theorem empty_stamp_eq_self_iff_depthless :
    depthlessEdge.addProperties .empty = { depthlessEdge with collapseDepth := .noCollapse } ∧
    depthlessTargets.withProperties .empty ≠ depthlessTargets ∧
    depthlessBelow.withProperties .empty = depthlessBelow ∧
    (depthlessBelow.withProperties .empty).targetsAt [.anyIndex] = depthlessTargets := by
  obtain ⟨edges, sets, trees⟩ := empty_stamp_eq_self_iff .standard
  have edgeObtained : EdgeProperties.Obtained .standard depthlessEdge :=
    .addPosition (.ofCollapseDepth .bottom) _
  have setObtained : PointsToSet.Obtained .standard depthlessTargets :=
    .insert (.single _ edgeObtained) _ .alwaysCollapse
  obtain ⟨unchanged_iff, _, below⟩ :=
    trees depthlessBelow (.write (.leaf (.single _ .empty)) [.anyIndex] setObtained .weak)
  have rootEdges : depthlessBelow.root.edges = [(⟨⟨3⟩, []⟩, .empty)] := by cbv
  refine ⟨(edges _ edgeObtained).2.1 (of_decide_eq_false (by cbv)) rfl,
    mt (sets _ setObtained).mp (of_decide_eq_false (by cbv)),
    unchanged_iff.mpr (by rw [rootEdges]; decide), ?_⟩
  rw [below [.anyIndex] (List.cons_ne_nil _ _)]
  exact of_decide_eq_true (by cbv)

/-- An edge made without a collapse depth changes when the empty properties are stamped on it, and so
do a set and a tree that hold it. -/
theorem empty_stamp_changes_missing_depth :
    (∃ edge, EdgeProperties.Obtained .standard edge ∧ edge.addProperties .empty ≠ edge) ∧
    (∃ set, PointsToSet.Obtained .standard set ∧ set.withProperties .empty ≠ set) ∧
    ∃ tree : PointsToTree .standard, tree.Obtained ∧ tree.withProperties .empty ≠ tree := by
  have obtained : EdgeProperties.Obtained .standard (.ofCollapseDepth .bottom) := .ofCollapseDepth _
  have setObtained : PointsToSet.Obtained .standard (.single ⟨⟨1⟩, []⟩ (.ofCollapseDepth .bottom)) :=
    .single _ obtained
  exact ⟨⟨_, obtained, of_decide_eq_false (by cbv)⟩, ⟨_, setObtained, of_decide_eq_false (by cbv)⟩,
    ⟨_, .leaf setObtained, of_decide_eq_false (by cbv)⟩⟩

end AliasTaint
