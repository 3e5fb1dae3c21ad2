import AliasTaint.Tree.Merge

/-!
# Lawful domains

A domain is lawful if its order is a preorder with a least value, its join is a least upper bound,
its meet a greatest lower bound, and its widening some upper bound.  Two values that cover each other
need not be the same data; where they are, the domain is antisymmetric as well.

Many domains of the analysis are lawful on their well-formed values only.  A set of values that the
operations never leave is a domain in its own right, and the laws are then stated for that domain.
-/

namespace AliasTaint

/-! ## The laws -/

class LawfulDomain (V : Type) [Domain V] : Prop where
  leq_refl (value : V) : Domain.leq value value
  leq_trans {first second third : V} :
    Domain.leq first second → Domain.leq second third → Domain.leq first third
  bottom_leq (value : V) : Domain.leq Domain.bottom value
  isBottom_iff {value : V} : Domain.isBottom value ↔ Domain.leq value Domain.bottom
  leq_join_left (left right : V) : Domain.leq left (Domain.join left right)
  leq_join_right (left right : V) : Domain.leq right (Domain.join left right)
  join_leq {left right upper : V} :
    Domain.leq left upper → Domain.leq right upper → Domain.leq (Domain.join left right) upper
  meet_leq_left (left right : V) : Domain.leq (Domain.meet left right) left
  meet_leq_right (left right : V) : Domain.leq (Domain.meet left right) right
  leq_meet {left right lower : V} :
    Domain.leq lower left → Domain.leq lower right → Domain.leq lower (Domain.meet left right)
  leq_widen_left (left right : V) : Domain.leq left (Domain.widen left right)
  leq_widen_right (left right : V) : Domain.leq right (Domain.widen left right)

/-- Values that cover each other are the same. -/
class AntisymmetricDomain (V : Type) [Domain V] : Prop where
  antisymm {left right : V} : Domain.leq left right → Domain.leq right left → left = right

/-- The top value covers every value, and is not bottom. -/
class LawfulTop (V : Type) [Domain V] [HasTop V] : Prop where
  leq_top (value : V) : Domain.leq value HasTop.top
  top_ne_bottom : (HasTop.top : V) ≠ Domain.bottom

namespace LawfulDomain

open Domain

variable {V : Type} [Domain V] [LawfulDomain V]

theorem join_leq_iff {left right upper : V} :
    leq (join left right) upper ↔ leq left upper ∧ leq right upper := by
  constructor
  · intro covered
    exact ⟨leq_trans (leq_join_left left right) covered,
      leq_trans (leq_join_right left right) covered⟩
  · rintro ⟨leftCovered, rightCovered⟩
    exact join_leq leftCovered rightCovered

theorem leq_join_of_leq_left
    {value left : V} (right : V) (covered : leq value left) :
    leq value (join left right) :=
  leq_trans covered (leq_join_left left right)

theorem leq_join_of_leq_right
    {value right : V} (left : V) (covered : leq value right) :
    leq value (join left right) :=
  leq_trans covered (leq_join_right left right)

theorem join_mono
    {left right upperLeft upperRight : V}
    (leftCovered : leq left upperLeft)
    (rightCovered : leq right upperRight) :
    leq (join left right) (join upperLeft upperRight) :=
  join_leq (leq_join_of_leq_left _ leftCovered) (leq_join_of_leq_right _ rightCovered)

theorem meet_mono
    {left right upperLeft upperRight : V}
    (leftCovered : leq left upperLeft)
    (rightCovered : leq right upperRight) :
    leq (meet left right) (meet upperLeft upperRight) :=
  leq_meet (leq_trans (meet_leq_left _ _) leftCovered)
    (leq_trans (meet_leq_right _ _) rightCovered)

theorem leq_of_isBottom {value : V} (isNothing : isBottom value) (upper : V) :
    leq value upper :=
  leq_trans (isBottom_iff.mp isNothing) (bottom_leq upper)

theorem isBottom_of_leq
    {value upper : V} (covered : leq value upper) (isNothing : isBottom upper) :
    isBottom value :=
  isBottom_iff.mpr (leq_trans covered (isBottom_iff.mp isNothing))

theorem filled_of_leq
    {value upper : V} (covered : leq value upper) (filled : isBottom value = false) :
    isBottom upper = false := by
  cases isNothing : isBottom upper with
  | false =>
      rfl
  | true =>
      rw [isBottom_of_leq covered isNothing] at filled
      exact filled

theorem isBottom_bottom : isBottom (bottom : V) :=
  isBottom_iff.mpr (leq_refl bottom)

theorem isBottom_join_iff {left right : V} :
    isBottom (join left right) ↔ isBottom left ∧ isBottom right := by
  rw [isBottom_iff, isBottom_iff, isBottom_iff, join_leq_iff]

theorem isBottom_meet_left {left : V} (right : V) (isNothing : isBottom left) :
    isBottom (meet left right) :=
  isBottom_of_leq (meet_leq_left left right) isNothing

theorem isBottom_meet_right (left : V) {right : V} (isNothing : isBottom right) :
    isBottom (meet left right) :=
  isBottom_of_leq (meet_leq_right left right) isNothing

omit [LawfulDomain V] in
theorem equals_iff {left right : V} :
    equals left right ↔ leq left right ∧ leq right left := by
  simp [equals]

theorem eq_bottom_of_isBottom [AntisymmetricDomain V] {value : V} (isNothing : isBottom value) :
    value = bottom :=
  AntisymmetricDomain.antisymm (isBottom_iff.mp isNothing) (bottom_leq value)

end LawfulDomain

/-! ## Parts of a domain -/

/-- The operations of a domain never lead out of a set of values. -/
class ClosedDomain {V : Type} [Domain V] (Good : V → Prop) : Prop where
  bottom : Good Domain.bottom
  join {left right : V} : Good left → Good right → Good (Domain.join left right)
  widen {left right : V} : Good left → Good right → Good (Domain.widen left right)
  meet {left right : V} : Good left → Good right → Good (Domain.meet left right)
  narrow {left right : V} : Good left → Good right → Good (Domain.narrow left right)

theorem closedDomain_true {V : Type} [Domain V] : ClosedDomain fun _ : V => True where
  bottom := trivial
  join _ _ := trivial
  widen _ _ := trivial
  meet _ _ := trivial
  narrow _ _ := trivial

/-- The operations that combine two values of a domain. -/
inductive LatticeOp where
  | join
  | widen
  | meet
  | narrow

def LatticeOp.apply {V : Type} [Domain V] : LatticeOp → V → V → V
  | .join => Domain.join
  | .widen => Domain.widen
  | .meet => Domain.meet
  | .narrow => Domain.narrow

theorem ClosedDomain.apply {V : Type} [Domain V] {Good : V → Prop} [ClosedDomain Good]
    (op : LatticeOp) {left right : V} (goodLeft : Good left) (goodRight : Good right) :
    Good (op.apply left right) := by
  cases op with
  | join =>
      exact ClosedDomain.join goodLeft goodRight
  | widen =>
      exact ClosedDomain.widen goodLeft goodRight
  | meet =>
      exact ClosedDomain.meet goodLeft goodRight
  | narrow =>
      exact ClosedDomain.narrow goodLeft goodRight

instance {V : Type} [Domain V] (Good : V → Prop) [ClosedDomain Good] :
    Domain (Subtype Good) where
  bottom := ⟨Domain.bottom, ClosedDomain.bottom⟩
  isBottom value := Domain.isBottom value.val
  isTop value := Domain.isTop value.val
  leq left right := Domain.leq left.val right.val
  join left right := ⟨Domain.join left.val right.val, ClosedDomain.join left.2 right.2⟩
  widen left right := ⟨Domain.widen left.val right.val, ClosedDomain.widen left.2 right.2⟩
  meet left right := ⟨Domain.meet left.val right.val, ClosedDomain.meet left.2 right.2⟩
  narrow left right := ⟨Domain.narrow left.val right.val, ClosedDomain.narrow left.2 right.2⟩

/-- A map between domains that keeps all operations and all tests. -/
structure Domain.Embedding {W V : Type} [Domain W] [Domain V] (embed : W → V) : Prop where
  bottom : embed bottom = bottom
  isBottom (value : W) : isBottom (embed value) = isBottom value
  leq (left right : W) : leq (embed left) (embed right) = leq left right
  join (left right : W) : embed (join left right) = join (embed left) (embed right)
  widen (left right : W) : embed (widen left right) = widen (embed left) (embed right)
  meet (left right : W) : embed (meet left right) = meet (embed left) (embed right)
  narrow (left right : W) : embed (narrow left right) = narrow (embed left) (embed right)

theorem embedding_val {V : Type} [Domain V] (Good : V → Prop) [ClosedDomain Good] :
    Domain.Embedding (Subtype.val : Subtype Good → V) where
  bottom := rfl
  isBottom _ := rfl
  leq _ _ := rfl
  join _ _ := rfl
  widen _ _ := rfl
  meet _ _ := rfl
  narrow _ _ := rfl

/-! ## What sinks into a child -/

namespace Domain

variable {V : Type} [Domain V]

/-- A function on values that keeps the order. -/
def MonotoneMap (change : V → V) : Prop :=
  ∀ {left right : V}, leq left right → leq (change left) (change right)

def JoinMap (change : V → V) : Prop :=
  ∀ left right : V, change (join left right) = join (change left) (change right)

/-- A function on values that shows on both sides of a meet no more than on the meet. -/
def MeetMap (change : V → V) : Prop :=
  ∀ left right : V, leq (meet (change left) (change right)) (change (meet left right))

theorem JoinMap.monotone [LawfulDomain V] [AntisymmetricDomain V]
    {change : V → V} (keepsJoins : JoinMap change) : MonotoneMap change := by
  intro left right covered
  have joined : join left right = right :=
    AntisymmetricDomain.antisymm
      (LawfulDomain.join_leq covered (LawfulDomain.leq_refl right))
      (LawfulDomain.leq_join_right left right)
  rw [← joined, keepsJoins left right]
  exact LawfulDomain.leq_join_left _ _

end Domain

theorem sinkIntoChild_nothing {V : Type} [Domain V] (ancestors value : V) :
    sinkIntoChild (fun _ => Domain.bottom) ancestors value = Domain.bottom := by
  unfold sinkIntoChild
  split <;> rfl

section Sinking

open Domain LawfulDomain

variable {V : Type} [Domain V] [LawfulDomain V] {sink : V → V}

/-- A child inherits more from a node that shows more. -/
theorem sinkIntoChild_leq
    (monotone : MonotoneMap sink)
    {ancestors value upperAncestors upperValue : V}
    (covered : leq (join ancestors value) (join upperAncestors upperValue)) :
    leq (sinkIntoChild sink ancestors value) (sinkIntoChild sink upperAncestors upperValue) := by
  unfold sinkIntoChild
  split
  · exact bottom_leq _
  · rename_i notBottom
    split
    · rename_i upperBottom
      -- A node that shows nothing cannot cover one that shows something.
      have upperNothing : isBottom (join upperAncestors upperValue) :=
        isBottom_join_iff.mpr (by simpa using upperBottom)
      have nothing := isBottom_join_iff.mp (isBottom_of_leq covered upperNothing)
      exact absurd (by simpa using nothing) notBottom
    · exact monotone covered

theorem isBottom_sinkIntoChild
    {ancestors value : V} (nothingShown : isBottom (join ancestors value)) :
    isBottom (sinkIntoChild sink ancestors value) := by
  have parts := isBottom_join_iff.mp nothingShown
  simp only [sinkIntoChild, parts.1, parts.2, Bool.and_self, if_true]
  exact isBottom_bottom

/-- What is shown at a node decides what it passes on. -/
theorem sinkIntoChild_bottom_leq
    (monotone : MonotoneMap sink)
    {shown upper : V} (covered : leq shown upper) :
    leq (sinkIntoChild sink bottom shown) (sinkIntoChild sink bottom upper) :=
  sinkIntoChild_leq monotone (join_mono (leq_refl bottom) covered)

theorem sinkIntoChild_bottom_leq_sink
    (monotone : MonotoneMap sink) (shown : V) :
    leq (sinkIntoChild sink bottom shown) (sink shown) := by
  unfold sinkIntoChild
  split
  · exact bottom_leq _
  · exact monotone (join_leq (bottom_leq _) (leq_refl _))

theorem sink_leq_sinkIntoChild_bottom
    (monotone : MonotoneMap sink) (keepsBottom : isBottom (sink bottom)) (shown : V) :
    leq (sink shown) (sinkIntoChild sink bottom shown) := by
  unfold sinkIntoChild
  split
  · rename_i nothing
    have nothingShown : isBottom shown := by
      simp only [Bool.and_eq_true] at nothing
      exact nothing.2
    have sunk := isBottom_of_leq (monotone (isBottom_iff.mp nothingShown)) keepsBottom
    exact leq_of_isBottom sunk _
  · exact monotone (leq_join_right _ _)

theorem sinkIntoChild_bottom_join_leq
    (monotone : MonotoneMap sink) (keepsJoins : JoinMap sink)
    (keepsBottom : isBottom (sink bottom)) (left right : V) :
    leq (sinkIntoChild sink bottom (join left right))
      (join (sinkIntoChild sink bottom left) (sinkIntoChild sink bottom right)) := by
  have sunk := sinkIntoChild_bottom_leq_sink monotone (join left right)
  rw [keepsJoins left right] at sunk
  exact leq_trans sunk
    (join_mono (sink_leq_sinkIntoChild_bottom monotone keepsBottom left)
      (sink_leq_sinkIntoChild_bottom monotone keepsBottom right))

theorem meet_leq_sinkIntoChild_bottom
    (monotone : MonotoneMap sink) (keepsMeets : MeetMap sink)
    (keepsBottom : isBottom (sink bottom)) (left right : V) :
    leq (meet (sinkIntoChild sink bottom left) (sinkIntoChild sink bottom right))
      (sinkIntoChild sink bottom (meet left right)) := by
  have sunk := meet_mono (sinkIntoChild_bottom_leq_sink monotone left)
    (sinkIntoChild_bottom_leq_sink monotone right)
  exact leq_trans sunk
    (leq_trans (keepsMeets left right)
      (sink_leq_sinkIntoChild_bottom monotone keepsBottom (meet left right)))

end Sinking

end AliasTaint
