import AliasTaint.Proofs.Tree.NormalOn
import AliasTaint.Proofs.Tree.Order
import Mathlib.Data.List.Induction
import Mathlib.Logic.Function.Iterate

/-!
# What is observed at a path

The value observed at a path is the value stored there joined with those stored above it, each sunk
once for every level in between.  If sinking keeps joins and bottom, that is what a tree shows, and
the order compares what one tree stores with what the other one observes.

Beyond the last stored node the values go on to sink, once for every level that is left.
-/

namespace AliasTaint

open Domain LawfulDomain

variable {V : Type} [Domain V]

/-! ## Values that cover each other -/

section Values

variable [LawfulDomain V] {sink : V → V}

namespace LawfulDomain

theorem equals_refl (value : V) : equals value value :=
  equals_iff.mpr ⟨leq_refl value, leq_refl value⟩

omit [LawfulDomain V] in
theorem equals_symm {left right : V} (same : equals left right) : equals right left :=
  equals_iff.mpr (equals_iff.mp same).symm

theorem equals_trans {first second third : V}
    (same : equals first second) (further : equals second third) : equals first third := by
  rw [equals_iff] at same further ⊢
  exact ⟨leq_trans same.1 further.1, leq_trans further.2 same.2⟩

theorem join_equals {left right otherLeft otherRight : V}
    (sameLeft : equals left otherLeft) (sameRight : equals right otherRight) :
    equals (join left right) (join otherLeft otherRight) := by
  rw [equals_iff] at sameLeft sameRight ⊢
  exact ⟨join_mono sameLeft.1 sameRight.1, join_mono sameLeft.2 sameRight.2⟩

theorem joinAll_leq_iff {values : List V} {upper : V} :
    leq (joinAll values) upper ↔ ∀ value ∈ values, leq value upper := by
  induction values with
  | nil =>
      exact iff_of_true (bottom_leq upper) nofun
  | cons value rest inductionHypothesis =>
      rw [List.forall_mem_cons, ← inductionHypothesis]
      exact join_leq_iff

theorem leq_joinAll {values : List V} {value : V} (member : value ∈ values) :
    leq value (joinAll values) :=
  joinAll_leq_iff.mp (leq_refl _) value member

end LawfulDomain

omit [LawfulDomain V] in
theorem Domain.MonotoneMap.equals (monotone : MonotoneMap sink) {left right : V}
    (same : equals left right) : equals (sink left) (sink right) := by
  rw [equals_iff] at same ⊢
  exact ⟨monotone same.1, monotone same.2⟩

omit [LawfulDomain V] in
theorem Domain.MonotoneMap.iterate_equals (monotone : MonotoneMap sink) {left right : V}
    (same : Domain.equals left right) (count : Nat) :
    Domain.equals (sink^[count] left) (sink^[count] right) := by
  induction count with
  | zero =>
      exact same
  | succ count inductionHypothesis =>
      rw [Function.iterate_succ_apply', Function.iterate_succ_apply']
      exact monotone.equals inductionHypothesis

theorem Domain.MonotoneMap.iterate_equals_self (monotone : MonotoneMap sink) {value : V}
    (same : Domain.equals (sink value) value) (count : Nat) :
    Domain.equals (sink^[count] value) value := by
  induction count with
  | zero =>
      exact equals_refl value
  | succ count inductionHypothesis =>
      rw [Function.iterate_succ_apply]
      exact equals_trans (monotone.iterate_equals same count) inductionHypothesis

theorem sink_joinAll_leq
    (keepsJoins : ∀ left right, leq (sink (join left right)) (join (sink left) (sink right)))
    (keepsBottom : isBottom (sink bottom)) (values : List V) :
    leq (sink (joinAll values)) (joinAll (values.map sink)) := by
  induction values with
  | nil =>
      exact leq_of_isBottom keepsBottom _
  | cons value rest inductionHypothesis =>
      exact leq_trans (keepsJoins value (joinAll rest))
        (join_mono (leq_refl _) inductionHypothesis)

theorem sinkIntoChild_bottom_equals
    (monotone : MonotoneMap sink) (keepsBottom : isBottom (sink bottom)) (shown : V) :
    equals (sinkIntoChild sink bottom shown) (sink shown) :=
  equals_iff.mpr ⟨sinkIntoChild_bottom_leq_sink monotone shown,
    sink_leq_sinkIntoChild_bottom monotone keepsBottom shown⟩

end Values

namespace Node

/-! ## What is observed -/

/-- The values stored above a path and at its end, each sunk once for every level in between. -/
def sunkValues (sink : V → V) (node : Node V) (path : Path) : List V :=
  (List.range (path.length + 1)).map fun level =>
    sink^[path.length - level] (node.stored (path.take level))

/-- The value stored at a path joined with those stored above it, each sunk once for every level in
between. -/
def observed (sink : V → V) (node : Node V) (path : Path) : V :=
  joinAll (node.sunkValues sink path)

/-- One step further down, the values above are sunk once more. -/
theorem sunkValues_concat (sink : V → V) (node : Node V) (path : Path) (label : PathElement) :
    node.sunkValues sink (path ++ [label]) =
      (node.sunkValues sink path).map sink ++ [node.stored (path ++ [label])] := by
  have sunkAgain : ∀ level ∈ List.range (path.length + 1),
      sink^[path.length + 1 - level] (node.stored ((path ++ [label]).take level)) =
        sink (sink^[path.length - level] (node.stored (path.take level))) := by
    intro level member
    have within : level ≤ path.length := Nat.lt_succ_iff.mp (List.mem_range.mp member)
    rw [Nat.sub_add_comm within, Function.iterate_succ_apply',
      List.take_append_of_le_length within]
  have atEnd : (path ++ [label]).take (path.length + 1) = path ++ [label] :=
    List.take_of_length_le (by simp)
  rw [sunkValues, List.length_append, List.length_singleton, List.range_succ, List.map_append,
    List.map_singleton, atEnd, Nat.sub_self, Function.iterate_zero_apply,
    List.map_congr_left sunkAgain, sunkValues, List.map_map]
  rfl

/-- Below a path, a tree shows what is stored there under what is shown at the path. -/
theorem view_append (sink : V → V) (node : Node V) (path below : Path) :
    node.view sink (path ++ below) =
      (node.rawRead path).showFrom sink (node.view sink path) below := by
  have descends : ∀ (shown : V) (start : Node V), start.showFrom sink shown (path ++ below) =
      (start.rawRead path).showFrom sink (start.showFrom sink shown path) below := by
    induction path with
    | nil =>
        intro shown start
        rfl
    | cons label path inductionHypothesis =>
        intro shown start
        rw [rawRead_cons]
        exact inductionHypothesis _ (start.childOrBottom label)
  exact descends node.value node

section Observing

variable [LawfulDomain V] {sink : V → V}

theorem observed_concat_equals
    (monotone : MonotoneMap sink)
    (keepsJoins : ∀ left right,
      Domain.leq (sink (join left right)) (join (sink left) (sink right)))
    (keepsBottom : Domain.isBottom (sink Domain.bottom))
    (node : Node V) (path : Path) (label : PathElement) :
    equals (node.observed sink (path ++ [label]))
      (join (sink (node.observed sink path)) (node.stored (path ++ [label]))) := by
  rw [observed, sunkValues_concat]
  apply equals_iff.mpr
  constructor
  · rw [joinAll_leq_iff]
    intro value member
    rcases List.mem_append.mp member with above | atEnd
    · obtain ⟨earlier, earlierMember, rfl⟩ := List.mem_map.mp above
      exact leq_join_of_leq_left _ (monotone (leq_joinAll earlierMember))
    · rw [List.mem_singleton.mp atEnd]
      exact leq_join_right _ _
  · refine join_leq (leq_trans (sink_joinAll_leq keepsJoins keepsBottom _) ?_) ?_
    · exact joinAll_leq_iff.mpr fun value member =>
        leq_joinAll (List.mem_append_left _ member)
    · exact leq_joinAll (List.mem_append_right _ List.mem_cons_self)

theorem view_equals_observed
    (monotone : MonotoneMap sink)
    (keepsJoins : ∀ left right,
      Domain.leq (sink (join left right)) (join (sink left) (sink right)))
    (keepsBottom : Domain.isBottom (sink Domain.bottom))
    (node : Node V) (path : Path) :
    equals (node.view sink path) (node.observed sink path) := by
  induction path using List.reverseRecOn with
  | nil =>
      exact equals_iff.mpr ⟨leq_join_left _ _, join_leq (leq_refl _) (bottom_leq _)⟩
  | append_singleton path label inductionHypothesis =>
      rw [view_concat]
      have passedOn := equals_trans (sinkIntoChild_bottom_equals monotone keepsBottom _)
        (monotone.equals inductionHypothesis)
      exact equals_trans (join_equals passedOn (equals_refl _))
        (equals_symm (observed_concat_equals monotone keepsJoins keepsBottom node path label))

/-- A node that stores nothing passes on what it inherits, sunk once for every level. -/
theorem showFrom_bottom_equals
    (monotone : MonotoneMap sink) (keepsBottom : Domain.isBottom (sink Domain.bottom))
    (shown : V) (path : Path) :
    equals ((bottom : Node V).showFrom sink shown path) (sink^[path.length] shown) := by
  induction path generalizing shown with
  | nil =>
      exact equals_refl shown
  | cons label path inductionHypothesis =>
      have passedOn : equals
          (join (sinkIntoChild sink Domain.bottom shown) (Domain.bottom : V)) (sink shown) := by
        have sunk := equals_iff.mp (sinkIntoChild_bottom_equals monotone keepsBottom shown)
        exact equals_iff.mpr
          ⟨join_leq sunk.1 (bottom_leq _), leq_join_of_leq_left _ sunk.2⟩
      exact equals_trans (inductionHypothesis _)
        (monotone.iterate_equals passedOn path.length)

theorem view_append_of_missing
    (monotone : MonotoneMap sink) (keepsBottom : Domain.isBottom (sink Domain.bottom))
    {node : Node V} {path : Path} (missing : node.descend? path = none) (below : Path) :
    equals (node.view sink (path ++ below)) (sink^[below.length] (node.view sink path)) := by
  rw [view_append, rawRead, missing]
  exact showFrom_bottom_equals monotone keepsBottom _ below

/-- What is shown at a missing node is sunk from one step above. -/
theorem exists_sink_of_missing
    (monotone : MonotoneMap sink) (keepsBottom : Domain.isBottom (sink Domain.bottom))
    {node : Node V} {path : Path} (missing : node.descend? path = none) :
    ∃ above, equals (node.view sink path) (sink above) := by
  rcases List.eq_nil_or_concat path with rfl | ⟨upper, label, rfl⟩
  · exact nomatch missing
  · have passedOn := equals_iff.mp
      (sinkIntoChild_bottom_equals monotone keepsBottom (node.view sink upper))
    refine ⟨node.view sink upper, ?_⟩
    rw [List.concat_eq_append] at missing ⊢
    rw [view_concat, stored_eq_descend?, missing]
    exact equals_iff.mpr ⟨join_leq passedOn.1 (bottom_leq _), leq_join_of_leq_left _ passedOn.2⟩

end Observing

end Node

namespace Tree

/-- Each tree covers the other. -/
def equals (sink : V → V) (left right : Tree V) : Bool :=
  left.leq sink right && right.leq sink left

/-- The value stored at a path joined with those stored above it, each sunk once for every level in
between. -/
def observed (sink : V → V) (tree : Tree V) (path : Path) : V :=
  tree.node.observed sink path

variable [LawfulDomain V] {sink : V → V}

theorem equals_iff_view (monotone : MonotoneMap sink) {left right : Tree V} :
    left.equals sink right ↔
      ∀ path, Domain.equals (left.view sink path) (right.view sink path) := by
  simp only [equals, Bool.and_eq_true, leq_iff_view_leq monotone, equals_iff, forall_and]

/-- The order compares what one tree stores with what the other shows. -/
theorem leq_iff_stored_leq_view (monotone : MonotoneMap sink) {left right : Tree V} :
    left.leq sink right ↔
      ∀ path, Domain.leq (left.node.stored path) (right.view sink path) := by
  rw [leq_iff_view_leq monotone]
  constructor
  · intro covered path
    exact leq_trans (Node.stored_leq_view left.node path) (covered path)
  · intro storedCovered path
    induction path using List.reverseRecOn with
    | nil =>
        exact storedCovered []
    | append_singleton path label inductionHypothesis =>
        have passedOn : Domain.leq (sinkIntoChild sink Domain.bottom (right.view sink path))
            (right.view sink (path ++ [label])) := by
          rw [view, view, Node.view_concat]
          exact leq_join_left _ _
        rw [view, Node.view_concat]
        exact join_leq
          (leq_trans (sinkIntoChild_bottom_leq monotone inductionHypothesis) passedOn)
          (storedCovered (path ++ [label]))

end Tree

end AliasTaint
