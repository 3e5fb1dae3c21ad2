import AliasTaint.Proofs.Taint.EnvironmentRead
import AliasTaint.Proofs.Tree.ReadBack

/-!
# Writes to several locations

A write to one of several locations must not replace what is there, since another of them may be
meant.  So a strong write to a set of locations is carried out as a strong write if the set has one
location only, and as weak writes otherwise.  Either way the environment covers what it is after a
strong write to any one of the locations, also if they share a root or lie inside each other.

Weak writes are described by what they add at each path of each root, in any order of the locations.
An environment of normal trees is covered by another one if that shows at least as much everywhere.
For both, the written tree has to be normal and well-formed: a set with more positions than the
heuristics allow is not its own join, so that a later write may lose what an earlier one dropped as
covered.  The kind of the write and the trees of other roots do not depend on what is written.
-/

namespace AliasTaint

open Domain

variable {heuristics : Heuristics}

namespace TaintTree

/-- A normal tree that shows nothing is bottom. -/
theorem Normal.isBottom_of_view_leq {tree : TaintTree heuristics} (normal : tree.Normal)
    (showsNothing : ∀ path, Domain.leq (tree.view path) Domain.bottom) : tree.isBottom := by
  cases filled : tree.isBottom with
  | true =>
      rfl
  | false =>
      obtain ⟨path, storedFilled⟩ := normal.normal.exists_stored_filled filled
      have goodStored := normal.wellFormed.stored path
      have storedNothing : Domain.isBottom (tree.stored path) :=
        (SemilatticeOn.isBottom_iff goodStored).mpr
          (SemilatticeOn.eq_bottom_of_leq goodStored
            (SemilatticeOn.leq_trans goodStored (good_view normal.wellFormed path)
              JoinClosed.bottom (stored_leq_view tree (List.prefix_refl path))
              (showsNothing path)))
      exact nomatch storedNothing.symm.trans storedFilled

/-- A write of either kind shows nothing that was neither there before nor written. -/
theorem inside_view_writeTree {Inside : Taint heuristics → Prop}
    (ideal : Ideal Taint.WellFormed Inside) {tree grafted : TaintTree heuristics}
    (formed : tree.WellFormed) (graftedFormed : grafted.WellFormed)
    (kind : UpdateKind) {path other : Path} (before : Inside (tree.view other))
    (written : ∀ rest, path ++ rest = other → Inside (grafted.view rest)) :
    Inside ((tree.writeTree path grafted kind).view other) := by
  cases kind with
  | weak =>
      exact (inside_view_writeTree_weak_iff ideal formed graftedFormed path other).mpr
        ⟨before, written⟩
  | strong =>
      by_cases leads : path <+: other
      · obtain ⟨below, rfl⟩ := leads
        rw [view_writeTree_strong formed graftedFormed]
        split
        · exact written below rfl
        · have goodParent := good_view formed path.dropLast
          have isBeginning : path.dropLast <+: path ++ below :=
            (List.dropLast_prefix path).trans (List.prefix_append path below)
          refine (ideal.join_iff goodParent (good_view graftedFormed below)).mpr
            ⟨?_, written below rfl⟩
          exact ideal.of_leq goodParent (good_view formed (path ++ below))
            (view_leq_view tree isBeginning) before
      · rw [view_writeTree_elsewhere tree grafted .strong leads]
        exact before

end TaintTree

namespace Environment

/-! ## One write -/

theorem treeOf_eq_treeAt {environment : Environment heuristics}
    (limited : environment.trees.isTop = false) (root : RootId) :
    environment.treeOf root = environment.treeAt root := by
  obtain ⟨trees⟩ := environment
  cases trees with
  | top =>
      exact nomatch limited
  | sparse map =>
      rfl

theorem treeOf_of_isTop {environment : Environment heuristics}
    (unlimited : environment.trees.isTop) (root : RootId) : environment.treeOf root = .top := by
  obtain ⟨trees⟩ := environment
  cases trees with
  | top =>
      rfl
  | sparse map =>
      exact nomatch unlimited

theorem treeOf_eq_of_tree?_eq {left right : Environment heuristics}
    (sameTop : left.trees.isTop = right.trees.isTop) {root : RootId}
    (sameTree : left.tree? root = right.tree? root) : left.treeOf root = right.treeOf root := by
  cases rightLimited : right.trees.isTop with
  | false =>
      rw [treeOf_eq_treeAt (sameTop.trans rightLimited), treeOf_eq_treeAt rightLimited, treeAt,
        treeAt, sameTree]
  | true =>
      rw [treeOf_of_isTop (sameTop.trans rightLimited), treeOf_of_isTop rightLimited]

section OneWrite

variable (environment : Environment heuristics) (location : Location) (path : Path)
  (taint : TaintTree heuristics) (kind : UpdateKind)

theorem isTop_write :
    (environment.write location path taint kind).trees.isTop = environment.trees.isTop :=
  Partition.isTop_set environment.trees location.root _

theorem tree?_write_of_ne {root : RootId} (different : root ≠ location.root) :
    (environment.write location path taint kind).tree? root = environment.tree? root := by
  obtain ⟨trees⟩ := environment
  cases trees with
  | top =>
      rfl
  | sparse map =>
      exact (Partition.binding?_sparse_set map _ root _).trans (if_neg different)

theorem treeOf_write (limited : environment.trees.isTop = false) (root : RootId) :
    (environment.write location path taint kind).treeOf root =
      if root = location.root then
        (environment.treeOf root).writeTree (location.path ++ path) taint kind
      else
        environment.treeOf root := by
  have stillLimited := (isTop_write environment location path taint kind).trans limited
  rw [treeOf_eq_treeAt stillLimited, treeOf_eq_treeAt limited, treeAt]
  split
  · rename_i written
    subst written
    obtain ⟨trees⟩ := environment
    cases trees with
    | top =>
        cases limited
    | sparse map =>
        have bound := Partition.binding?_sparse_set map location.root location.root
          (((map.get? location.root).getD .bottom).writeTree (location.path ++ path) taint kind)
        rw [if_pos rfl] at bound
        exact (congrArg (Option.getD · .bottom) bound).trans (TaintTree.getD_nonBottom? _)
  · rename_i different
    rw [tree?_write_of_ne _ _ _ _ _ different, treeAt]

end OneWrite

/-! ## Environments of normal trees -/

theorem normal_iff_treeOf {environment : Environment heuristics}
    (limited : environment.trees.isTop = false) :
    environment.Normal ↔ ∀ root, (environment.treeOf root).Normal := by
  obtain ⟨trees⟩ := environment
  cases trees with
  | top =>
      exact nomatch limited
  | sparse map =>
      constructor
      · intro normal root
        rw [treeOf_sparse]
        cases found : map.get? root with
        | none =>
            exact TaintTree.normal_bottom
        | some tree =>
            exact normal (root, tree) (Entries.mem_of_lookup found)
      · rintro normal ⟨root, tree⟩ member
        have found : map.get? root = some tree := map.increasing.lookup_eq_some_iff.mpr member
        have treeNormal := normal root
        rwa [treeOf_sparse, found] at treeNormal

theorem Normal.write {environment : Environment heuristics} (normal : environment.Normal)
    {taint : TaintTree heuristics} (taintNormal : taint.Normal) (location : Location) (path : Path)
    (kind : UpdateKind) : (environment.write location path taint kind).Normal := by
  cases limited : environment.trees.isTop with
  | true =>
      obtain ⟨trees⟩ := environment
      cases trees with
      | top =>
          exact nofun
      | sparse map =>
          exact nomatch limited
  | false =>
      refine (normal_iff_treeOf ((isTop_write ..).trans limited)).mpr fun root => ?_
      have treeNormal := (normal_iff_treeOf limited).mp normal root
      rw [treeOf_write _ _ _ _ _ limited]
      split
      · exact treeNormal.writeTree taintNormal _ kind
      · exact treeNormal

theorem leq_of_isTop (environment : Environment heuristics) {upper : Environment heuristics}
    (unlimited : upper.trees.isTop) : Domain.leq environment upper := by
  obtain ⟨upperTrees⟩ := upper
  cases upperTrees with
  | top =>
      exact Partition.leq_top environment.trees
  | sparse map =>
      exact nomatch unlimited

/-- Normal trees are covered if at every path of every root at least as much is shown. -/
theorem leq_of_view_leq {left right : Environment heuristics}
    (leftNormal : left.Normal) (rightFormed : right.WellFormed)
    (leftLimited : left.trees.isTop = false)
    (covered : ∀ root path,
      Domain.leq ((left.treeOf root).view path) ((right.treeOf root).view path)) :
    Domain.leq left right := by
  obtain ⟨leftTrees⟩ := left
  obtain ⟨rightTrees⟩ := right
  cases rightTrees with
  | top =>
      exact Partition.leq_top leftTrees
  | sparse rightMap =>
      cases leftTrees with
      | top =>
          exact nomatch leftLimited
      | sparse leftMap =>
          refine List.all_eq_true.mpr ?_
          rintro ⟨root, tree⟩ member
          have found : leftMap.get? root = some tree :=
            leftMap.increasing.lookup_eq_some_iff.mpr member
          have treeNormal : tree.Normal := leftNormal (root, tree) member
          have treeCovered := covered root
          rw [treeOf_sparse, found, treeOf_sparse] at treeCovered
          cases otherFound : rightMap.get? root with
          | none =>
              simp only [otherFound] at treeCovered ⊢
              refine treeNormal.isBottom_of_view_leq fun path => ?_
              rw [← TaintTree.view_bottom path]
              exact treeCovered path
          | some other =>
              simp only [otherFound] at treeCovered ⊢
              have otherFormed : other.WellFormed :=
                rightFormed (root, other) (Entries.mem_of_lookup otherFound)
              exact (TaintTree.leq_iff_view_leq treeNormal.wellFormed otherFormed).mpr treeCovered

theorem Normal.leq_refl {environment : Environment heuristics} (normal : environment.Normal) :
    Domain.leq environment environment := by
  cases limited : environment.trees.isTop with
  | true =>
      exact leq_of_isTop environment limited
  | false =>
      refine leq_of_view_leq normal normal.wellFormed limited fun root path => ?_
      exact SemilatticeOn.leq_refl
        (TaintTree.good_view (wellFormed_treeOf normal.wellFormed root) path)

/-! ## Several writes -/

/-- The environment after writes of one kind to some locations, one after the other. -/
def writeAll (environment : Environment heuristics) (locations : List Location) (path : Path)
    (taint : TaintTree heuristics) (kind : UpdateKind) : Environment heuristics :=
  locations.foldl (fun current location => current.write location path taint kind) environment

theorem tree?_writeAll_of_ne (environment : Environment heuristics) {locations : List Location}
    {root : RootId} (unmentioned : ∀ location ∈ locations, location.root ≠ root) (path : Path)
    (taint : TaintTree heuristics) (kind : UpdateKind) :
    (environment.writeAll locations path taint kind).tree? root = environment.tree? root := by
  induction locations generalizing environment with
  | nil =>
      rfl
  | cons location rest inductionHypothesis =>
      obtain ⟨different, restUnmentioned⟩ := List.forall_mem_cons.mp unmentioned
      exact (inductionHypothesis _ restUnmentioned).trans
        (tree?_write_of_ne environment location path taint kind different.symm)

theorem isTop_writeAll (environment : Environment heuristics) (locations : List Location)
    (path : Path) (taint : TaintTree heuristics) (kind : UpdateKind) :
    (environment.writeAll locations path taint kind).trees.isTop = environment.trees.isTop := by
  induction locations generalizing environment with
  | nil =>
      rfl
  | cons location rest inductionHypothesis =>
      exact (inductionHypothesis _).trans (isTop_write ..)

section SeveralWrites

variable {environment : Environment heuristics} (normal : environment.Normal)
  {taint : TaintTree heuristics} (taintNormal : taint.Normal) (path : Path)

include normal taintNormal

theorem normal_writeAll (locations : List Location) (kind : UpdateKind) :
    (environment.writeAll locations path taint kind).Normal := by
  induction locations generalizing environment with
  | nil =>
      exact normal
  | cons location rest inductionHypothesis =>
      exact inductionHypothesis (normal.write taintNormal location path kind)

variable (limited : environment.trees.isTop = false)

include limited

theorem inside_view_write_weak_iff {Inside : Taint heuristics → Prop}
    (ideal : Ideal Taint.WellFormed Inside) (location : Location) (root : RootId) (other : Path) :
    Inside (((environment.write location path taint .weak).treeOf root).view other) ↔
      Inside ((environment.treeOf root).view other) ∧
        (location.root = root →
          ∀ rest, location.path ++ path ++ rest = other → Inside (taint.view rest)) := by
  have treeNormal := (normal_iff_treeOf limited).mp normal root
  rw [treeOf_write _ _ _ _ _ limited]
  split
  · rename_i written
    rw [TaintTree.inside_view_writeTree_weak_iff ideal treeNormal.wellFormed taintNormal.wellFormed]
    exact and_congr_right fun _ => ⟨fun all _ => all, fun all => all written.symm⟩
  · rename_i different
    exact (and_iff_left fun same => absurd same.symm different).symm

/-- Weak writes add to each path of a root what is written to a beginning of it. -/
theorem inside_view_writeAll_weak_iff {Inside : Taint heuristics → Prop}
    (ideal : Ideal Taint.WellFormed Inside) (locations : List Location) (root : RootId)
    (other : Path) :
    Inside (((environment.writeAll locations path taint .weak).treeOf root).view other) ↔
      Inside ((environment.treeOf root).view other) ∧
        ∀ location ∈ locations, location.root = root →
          ∀ rest, location.path ++ path ++ rest = other → Inside (taint.view rest) := by
  induction locations generalizing environment with
  | nil =>
      exact (and_iff_left nofun).symm
  | cons location rest inductionHypothesis =>
      have step := inside_view_write_weak_iff normal taintNormal path limited ideal location root other
      have further := inductionHypothesis (normal.write taintNormal location path .weak)
        ((isTop_write ..).trans limited)
      refine further.trans ?_
      rw [step, List.forall_mem_cons, and_assoc]

/-- Weak writes to some locations cover what was there and what was written. -/
theorem leq_view_writeAll (locations : List Location) (root : RootId) (other : Path) :
    Domain.leq ((environment.treeOf root).view other)
        (((environment.writeAll locations path taint .weak).treeOf root).view other) ∧
      ∀ location ∈ locations, location.root = root →
        ∀ rest, location.path ++ path ++ rest = other →
          Domain.leq (taint.view rest)
            (((environment.writeAll locations path taint .weak).treeOf root).view other) := by
  have writtenNormal := normal_writeAll normal taintNormal path locations .weak
  have stillLimited := (isTop_writeAll environment locations path taint .weak).trans limited
  have good := TaintTree.good_view
    ((normal_iff_treeOf stillLimited).mp writtenNormal root).wellFormed other
  exact (inside_view_writeAll_weak_iff normal taintNormal path limited (ideal_leq good) locations
    root other).mp (SemilatticeOn.leq_refl good)

omit limited

theorem leq_writeAll_weak (locations : List Location) :
    Domain.leq environment (environment.writeAll locations path taint .weak) := by
  have writtenNormal := normal_writeAll normal taintNormal path locations .weak
  cases limited : environment.trees.isTop with
  | true =>
      exact leq_of_isTop environment
        ((isTop_writeAll environment locations path taint .weak).trans limited)
  | false =>
      refine leq_of_view_leq normal writtenNormal.wellFormed limited fun root other => ?_
      exact (leq_view_writeAll normal taintNormal path limited locations root other).1

/-- After weak writes to some locations, the environment covers a write of either kind to one of
them. -/
theorem write_leq_writeAll_weak {locations : List Location} {location : Location}
    (member : location ∈ locations) (kind : UpdateKind) :
    Domain.leq (environment.write location path taint kind)
      (environment.writeAll locations path taint .weak) := by
  have writtenNormal := normal_writeAll normal taintNormal path locations .weak
  cases limited : environment.trees.isTop with
  | true =>
      exact leq_of_isTop _ ((isTop_writeAll environment locations path taint .weak).trans limited)
  | false =>
      have stillLimited := (isTop_writeAll environment locations path taint .weak).trans limited
      refine leq_of_view_leq (normal.write taintNormal location path kind) writtenNormal.wellFormed
        ((isTop_write ..).trans limited) fun root other => ?_
      obtain ⟨before, added⟩ :=
        leq_view_writeAll normal taintNormal path limited locations root other
      have treeNormal := (normal_iff_treeOf limited).mp normal root
      have good := TaintTree.good_view
        ((normal_iff_treeOf stillLimited).mp writtenNormal root).wellFormed other
      rw [treeOf_write _ _ _ _ _ limited]
      split
      · rename_i written
        exact TaintTree.inside_view_writeTree (ideal_leq good) treeNormal.wellFormed
          taintNormal.wellFormed kind before (added location member written.symm)
      · exact before

end SeveralWrites

/-! ## Sets of locations -/

theorem appliedKind_of_one {locations : LocationSet} (isSingle : locations.size = 1)
    (kind : UpdateKind) :
    appliedKind locations kind = kind := by
  obtain ⟨members, increasing⟩ := locations
  obtain ⟨location, rfl⟩ := List.length_eq_one_iff.mp isSingle
  rfl

theorem appliedKind_of_two {locations : LocationSet} (areSeveral : 2 ≤ locations.size)
    (kind : UpdateKind) :
    appliedKind locations kind = .weak := by
  obtain ⟨members, increasing⟩ := locations
  cases members with
  | nil =>
      exact nomatch areSeveral
  | cons first rest =>
      cases rest with
      | nil =>
          exact nomatch Nat.le_of_succ_le_succ areSeveral
      | cons second further =>
          rfl

theorem toList_of_one {locations : LocationSet} (isSingle : locations.size = 1)
    {location : Location} (member : location ∈ locations) : locations.toList = [location] := by
  obtain ⟨only, isOnly⟩ := List.length_eq_one_iff.mp isSingle
  have isMember : location ∈ locations.toList := member
  rw [isOnly, List.mem_singleton] at isMember
  rw [isOnly, isMember]

theorem writeLocations_eq (environment : Environment heuristics) (locations : LocationSet)
    (path : Path) (taint : TaintTree heuristics) (kind : UpdateKind) :
    environment.writeLocations locations path taint kind =
      (appliedKind locations kind,
        environment.writeAll locations.toList path taint (appliedKind locations kind)) :=
  rfl

/-- A strong write to a set of locations is carried out as a weak write to all of them if there are
several, and is the strong write if there is one.  Trees of other roots stay.  A strong write of a
normal tree covers a strong write to each of the locations and, if there are several, what was there
before. -/
theorem writeLocations_covers_each {environment : Environment heuristics}
    (normal : environment.Normal) (taint : TaintTree heuristics) (locations : LocationSet)
    (path : Path) :
    (taint.Normal → ∀ location ∈ locations,
      Domain.leq (environment.write location path taint .strong)
        (environment.writeLocations locations path taint .strong).2) ∧
    (2 ≤ locations.size →
      (environment.writeLocations locations path taint .strong).1 = .weak ∧
      (environment.writeLocations locations path taint .strong).2 =
        (environment.writeLocations locations path taint .weak).2 ∧
      (taint.Normal →
        Domain.leq environment (environment.writeLocations locations path taint .strong).2)) ∧
    (locations.size = 1 →
      (environment.writeLocations locations path taint .strong).1 = .strong ∧
      ∀ location ∈ locations, (environment.writeLocations locations path taint .strong).2 =
        environment.write location path taint .strong) ∧
    (∀ root, (∀ location ∈ locations, location.root ≠ root) →
      (environment.writeLocations locations path taint .strong).2.tree? root =
        environment.tree? root ∧
      (environment.writeLocations locations path taint .strong).2.treeOf root =
        environment.treeOf root) := by
  simp only [writeLocations_eq]
  refine ⟨?each, ?several, ?single, ?others⟩
  case several =>
    intro areSeveral
    simp only [appliedKind_of_two areSeveral]
    exact ⟨trivial, trivial,
      fun taintNormal => leq_writeAll_weak normal taintNormal path locations.toList⟩
  case single =>
    intro isSingle
    rw [appliedKind_of_one isSingle]
    refine ⟨rfl, fun location member => ?_⟩
    rw [toList_of_one isSingle member]
    rfl
  case others =>
    intro root unmentioned
    have sameTree := tree?_writeAll_of_ne environment unmentioned path taint
      (appliedKind locations .strong)
    exact ⟨sameTree, treeOf_eq_of_tree?_eq (isTop_writeAll ..) sameTree⟩
  case each =>
    intro taintNormal location member
    by_cases areSeveral : 2 ≤ locations.size
    · rw [appliedKind_of_two areSeveral]
      exact write_leq_writeAll_weak normal taintNormal path member .strong
    · have someMember : 0 < locations.size := List.length_pos_of_mem member
      have isSingle : locations.size = 1 := by omega
      rw [appliedKind_of_one isSingle, toList_of_one isSingle member]
      exact (normal.write taintNormal location path .strong).leq_refl

/-- A root and the elements of it. -/
def nestedLocations : LocationSet where
  toList := [⟨⟨0⟩, []⟩, ⟨⟨0⟩, [.anyIndex]⟩]
  increasing := by decide

/-- Taint of elements is written to a tainted root and, inside of it, to its elements. -/
theorem writeLocations_covers_each_nested :
    (binding TaintTree.rootA).Normal ∧ TaintTree.elementsB.Normal ∧ nestedLocations.size = 2 ∧
    Domain.leq ((binding TaintTree.rootA).write ⟨⟨0⟩, []⟩ [] TaintTree.elementsB .strong)
      ((binding TaintTree.rootA).writeLocations nestedLocations [] TaintTree.elementsB .strong).2 ∧
    ((binding TaintTree.rootA).writeLocations nestedLocations [] TaintTree.elementsB .strong).1 =
      .weak ∧
    Domain.leq (binding TaintTree.rootA)
      ((binding TaintTree.rootA).writeLocations nestedLocations [] TaintTree.elementsB .strong).2 ∧
    ((binding TaintTree.rootA).writeLocations nestedLocations [] TaintTree.elementsB
      .strong).2.tree? ⟨1⟩ = (binding TaintTree.rootA).tree? ⟨1⟩ := by
  have rootNormal : TaintTree.rootA.Normal := TaintTree.normal_leaf (of_decide_eq_true (by cbv))
  have normal : (binding TaintTree.rootA).Normal := normal_binding rootNormal
  have taintNormal : TaintTree.elementsB.Normal :=
    TaintTree.normal_ofEdges (of_decide_eq_true (by cbv))
  have areTwo : nestedLocations.size = 2 := rfl
  have member : ⟨⟨0⟩, []⟩ ∈ nestedLocations := List.mem_cons_self
  have unmentioned : ∀ location ∈ nestedLocations.toList, location.root ≠ ⟨1⟩ := by decide
  obtain ⟨each, several, _, others⟩ :=
    writeLocations_covers_each normal TaintTree.elementsB nestedLocations []
  obtain ⟨isWeak, _, covered⟩ := several (Nat.le_of_eq areTwo.symm)
  exact ⟨normal, taintNormal, areTwo, each taintNormal _ member, isWeak, covered taintNormal,
    (others ⟨1⟩ unmentioned).1⟩

/-- Taint that was found at one line, deep below a root. -/
def deepLine : Environment ⟨4, 1, 1⟩ :=
  binding (.ofEdges [([.field "m", .field "n", .field "a", .field "b", .field "c"],
    TaintTree.foundAt [9])])

/-- Taint that was found at several lines, where one is allowed. -/
def crowdedTaint : TaintTree ⟨4, 1, 1⟩ :=
  .ofEdges [([.field "n"], TaintTree.foundAt [1, 2, 3]),
    ([.field "m", .field "n", .field "a"], TaintTree.foundAt [1, 2]),
    ([.field "m", .field "n", .field "a", .field "b"], TaintTree.foundAt [2, 3])]

/-- A root and a field of it. -/
def fieldLocations : LocationSet where
  toList := [⟨⟨0⟩, []⟩, ⟨⟨0⟩, [.field "m"]⟩]
  increasing := by decide

/-- A root, a field of it and another root. -/
def threeLocations : LocationSet where
  toList := [⟨⟨0⟩, []⟩, ⟨⟨0⟩, [.field "m"]⟩, ⟨⟨1⟩, []⟩]
  increasing := by decide

/-- The first write drops the deep line, since the join of the two sets above it is widened.  The second
one puts a set above these two that covers each of them, so that they are dropped in their turn, and
nothing is left that covers the deep line.  A third location makes no difference. -/
theorem writeLocations_loses_taint :
    deepLine.Normal ∧ ¬ crowdedTaint.WellFormed ∧
    Domain.leq deepLine (deepLine.writeLocations fieldLocations [] crowdedTaint .strong).2 = false ∧
    Domain.leq (deepLine.write ⟨⟨1⟩, []⟩ [] crowdedTaint .strong)
      (deepLine.writeLocations threeLocations [] crowdedTaint .strong).2 = false := by
  have lineFormed : (TaintTree.foundAt [9] : Taint ⟨4, 1, 1⟩).WellFormed :=
    of_decide_eq_true (by cbv)
  refine ⟨normal_binding (TaintTree.normal_ofEdges (List.forall_mem_singleton.mpr lineFormed)),
    ?_, ?_, ?_⟩
  · intro formed
    have beyondLimit : ¬ (crowdedTaint.stored [.field "n"]).WellFormed :=
      of_decide_eq_false (by cbv)
    exact beyondLimit (formed.stored [.field "n"])
  · cbv
  · cbv

end Environment

end AliasTaint
