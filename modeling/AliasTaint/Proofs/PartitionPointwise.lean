import AliasTaint.Proofs.Partition
import AliasTaint.Proofs.Value.CollapseDepth
import Mathlib.Data.Fintype.EquivFin

/-!
# Partitions as functions of their keys

A partition is stored in one of two ways, as its finitely many bindings or as the mark of the top
partition.  What it stands for is the function that gives each key its value.  No operation stores a
bottom value, so two partitions that stand for the same function are the same, and the order, the
joins and the meets are those of the functions.

For the top partition this needs more keys than a partition can bind.  Some key of a sparse partition
then has the bottom value, where the top partition has the top value.
-/

namespace AliasTaint

open Domain

/-! ## The greatest value -/

namespace LawfulTop

variable {V : Type} [Domain V] [HasTop V] [LawfulDomain V] [AntisymmetricDomain V] [LawfulTop V]

theorem top_join (value : V) : join HasTop.top value = HasTop.top :=
  AntisymmetricDomain.antisymm (leq_top _) (LawfulDomain.leq_join_left _ _)

theorem join_top (value : V) : join value HasTop.top = HasTop.top :=
  AntisymmetricDomain.antisymm (leq_top _) (LawfulDomain.leq_join_right _ _)

theorem top_meet (value : V) : meet HasTop.top value = value :=
  AntisymmetricDomain.antisymm (LawfulDomain.meet_leq_right _ _)
    (LawfulDomain.leq_meet (leq_top value) (LawfulDomain.leq_refl value))

theorem meet_top (value : V) : meet value HasTop.top = value :=
  AntisymmetricDomain.antisymm (LawfulDomain.meet_leq_left _ _)
    (LawfulDomain.leq_meet (LawfulDomain.leq_refl value) (leq_top value))

end LawfulTop

namespace Partition

variable {K V : Type} [Ord K] [DecidableEq K] [Std.TransOrd K] [Std.LawfulEqOrd K] [Domain V]

/-! ## Partitions that operations build -/

/-- The partitions that operations build from the empty and the top partition. -/
inductive Built : Partition K V → Prop where
  | empty : Built .empty
  | top : Built .top
  | set {partition : Partition K V} (built : Built partition) (key : K) (value : V) :
      Built (partition.set key value)
  | update {partition : Partition K V} (built : Built partition) (key : K) (change : V → V) :
      Built (partition.update key change)
  | remove {partition : Partition K V} (built : Built partition) (key : K) :
      Built (partition.remove key).2
  | transform {partition : Partition K V} (built : Built partition) (change : V → V) :
      Built (partition.transform change)
  | combine {left right : Partition K V} (op : LatticeOp)
      (leftBuilt : Built left) (rightBuilt : Built right) : Built (op.apply left right)

omit [Std.TransOrd K] [Std.LawfulEqOrd K] in
theorem wellFormed_remove {Good : V → Prop} {partition : Partition K V}
    (formed : partition.WellFormed Good) (key : K) : (partition.remove key).2.WellFormed Good := by
  cases partition with
  | top =>
      exact trivial
  | sparse map =>
      intro entry member
      exact formed entry (List.mem_filter.mp member).1

variable [LawfulDomain V]

/-- No operation binds a key to bottom. -/
theorem Built.wellFormed {partition : Partition K V} (built : partition.Built) :
    partition.WellFormed fun _ => True := by
  induction built with
  | empty =>
      exact List.forall_mem_nil _
  | top =>
      exact trivial
  | set _ key value formed =>
      exact wellFormed_set formed key trivial
  | update _ key change formed =>
      exact wellFormed_set formed key trivial
  | remove _ key formed =>
      exact wellFormed_remove formed key
  | transform _ change formed =>
      exact wellFormed_transform formed fun _ _ => trivial
  | combine op _ _ leftFormed rightFormed =>
      have values : ClosedDomain fun _ : V => True := closedDomain_true
      have partitions : ClosedDomain (WellFormed (K := K) fun _ : V => True) :=
        closedDomain_wellFormed
          (fun _ _ filled _ => LawfulDomain.filled_of_leq (LawfulDomain.leq_join_left _ _) filled)
          (fun _ _ filled _ => LawfulDomain.filled_of_leq (LawfulDomain.leq_widen_left _ _) filled)
      exact ClosedDomain.apply op leftFormed rightFormed

/-! ## Values of keys -/

variable [HasTop V]

omit [Std.TransOrd K] [Std.LawfulEqOrd K] [LawfulDomain V] in
@[simp]
theorem get_top (key : K) : (top : Partition K V).get key = HasTop.top :=
  rfl

omit [Std.TransOrd K] [Std.LawfulEqOrd K] [LawfulDomain V] in
@[simp]
theorem get_sparse (map : SortedMap K V) (key : K) : (sparse map).get key = map.valueAt key :=
  rfl

omit [Std.TransOrd K] [Std.LawfulEqOrd K] [LawfulDomain V] [HasTop V] in
/-- A map does not bind all of infinitely many keys. -/
theorem exists_valueAt_eq_bottom [Infinite K] (map : SortedMap K V) :
    ∃ key, map.valueAt key = bottom := by
  obtain ⟨key, unbound⟩ := Infinite.exists_notMem_finset map.keys.toFinset
  have absent : map.get? key = none := by
    rw [SortedMap.get?, List.lookup_eq_none_iff]
    intro entry member
    rw [bne_iff_ne]
    rintro rfl
    exact unbound (List.mem_toFinset.mpr (List.mem_map_of_mem member))
  refine ⟨key, ?_⟩
  rw [SortedMap.valueAt, absent, Option.getD_none]

section Pointwise

variable [AntisymmetricDomain V] [LawfulTop V] {left right : Partition K V}
  (leftFormed : left.WellFormed fun _ => True) (rightFormed : right.WellFormed fun _ => True)

include leftFormed rightFormed

theorem leq_iff_get [Infinite K] :
    Domain.leq left right ↔ ∀ key, Domain.leq (left.get key) (right.get key) := by
  have semilattice : SemilatticeOn fun _ : V => True := semilatticeOn_true
  cases right with
  | top =>
      exact iff_of_true (leq_top left) fun key => LawfulTop.leq_top _
  | sparse rightMap =>
      cases left with
      | top =>
          refine iff_of_false nofun fun covered => ?_
          obtain ⟨key, isNothing⟩ := exists_valueAt_eq_bottom rightMap
          have topCovered := covered key
          rw [get_top, get_sparse, isNothing] at topCovered
          exact LawfulTop.top_ne_bottom
            (AntisymmetricDomain.antisymm topCovered (LawfulDomain.bottom_leq _))
      | sparse leftMap =>
          have leftStores : leftMap.Stores fun _ => True := leftFormed
          exact sparse_leq_sparse_iff leftStores rightFormed

theorem get_join (key : K) :
    (Domain.join left right).get key = Domain.join (left.get key) (right.get key) := by
  have semilattice : SemilatticeOn fun _ : V => True := semilatticeOn_true
  cases left with
  | top =>
      exact (LawfulTop.top_join _).symm
  | sparse leftMap =>
      cases right with
      | top =>
          exact (LawfulTop.join_top _).symm
      | sparse rightMap =>
          have leftStores : leftMap.Stores fun _ => True := leftFormed
          exact leftStores.valueAt_combine rightFormed key

theorem get_meet (key : K) :
    (Domain.meet left right).get key = Domain.meet (left.get key) (right.get key) := by
  cases right with
  | top =>
      exact (LawfulTop.meet_top _).symm
  | sparse rightMap =>
      cases left with
      | top =>
          exact (LawfulTop.top_meet _).symm
      | sparse leftMap =>
          have leftStores : leftMap.Stores fun _ => True := leftFormed
          have eq_bottom {value : V} : isBottom value → value = Domain.bottom :=
            LawfulDomain.eq_bottom_of_isBottom
          exact leftStores.valueAt_common_of_bottom
            (fun _ => eq_bottom (LawfulDomain.isBottom_meet_left _ LawfulDomain.isBottom_bottom))
            (fun _ => eq_bottom (LawfulDomain.isBottom_meet_right _ LawfulDomain.isBottom_bottom))
            (fun _ _ => eq_bottom) trivial rightFormed key

theorem eq_of_get_eq [Infinite K] (sameValues : ∀ key, left.get key = right.get key) :
    left = right := by
  have semilattice : SemilatticeOn fun _ : V => True := semilatticeOn_true
  refine leq_antisymm_of_values leftFormed rightFormed ?_ ?_
  · refine (leq_iff_get leftFormed rightFormed).mpr fun key => ?_
    rw [sameValues key]
    exact LawfulDomain.leq_refl _
  · refine (leq_iff_get rightFormed leftFormed).mpr fun key => ?_
    rw [sameValues key]
    exact LawfulDomain.leq_refl _

end Pointwise

/-- Partitions that operations build store no bottom value, and none at all if they are top.  They are
ordered, joined and met key by key, and the values of the keys determine them. -/
theorem built_pointwise [Infinite K] [AntisymmetricDomain V] [LawfulTop V]
    {left right : Partition K V} (leftBuilt : left.Built) (rightBuilt : right.Built) :
    (∀ entry ∈ left.bindings, isBottom entry.2 = false) ∧
    (left.isTop → left.bindings = []) ∧
    (Domain.leq left right ↔ ∀ key, Domain.leq (left.get key) (right.get key)) ∧
    (∀ key, (Domain.join left right).get key = Domain.join (left.get key) (right.get key)) ∧
    (∀ key, (Domain.meet left right).get key = Domain.meet (left.get key) (right.get key)) ∧
    ((∀ key, left.get key = right.get key) ↔ left = right) := by
  have leftFormed := leftBuilt.wellFormed
  have rightFormed := rightBuilt.wellFormed
  refine ⟨leftFormed.filled, bindings_of_isTop, leq_iff_get leftFormed rightFormed,
    get_join leftFormed rightFormed, get_meet leftFormed rightFormed, ?_⟩
  constructor
  · exact eq_of_get_eq leftFormed rightFormed
  · rintro rfl key
    rfl

/-- Two keys with depths, the first of which was lowered. -/
def twoDepths : Partition Nat CollapseDepth :=
  ((empty.set 0 (.level 3)).set 1 (.level 5)).update 0 (Domain.join (.level 2))

/-- What is left of the top partition under a single depth. -/
def oneDepth : Partition Nat CollapseDepth :=
  Domain.meet .top (empty.set 0 (.level 2))

theorem built_pointwise_depths :
    twoDepths.Built ∧ oneDepth.Built ∧
    (∀ entry ∈ twoDepths.bindings, isBottom entry.2 = false) ∧
    (twoDepths.isTop → twoDepths.bindings = []) ∧
    (Domain.leq twoDepths oneDepth ↔
      ∀ key, Domain.leq (twoDepths.get key) (oneDepth.get key)) ∧
    (∀ key, (Domain.join twoDepths oneDepth).get key =
      Domain.join (twoDepths.get key) (oneDepth.get key)) ∧
    (∀ key, (Domain.meet twoDepths oneDepth).get key =
      Domain.meet (twoDepths.get key) (oneDepth.get key)) ∧
    ((∀ key, twoDepths.get key = oneDepth.get key) ↔ twoDepths = oneDepth) := by
  have twoBuilt : twoDepths.Built := ((Built.empty.set 0 _).set 1 _).update 0 _
  have oneBuilt : oneDepth.Built := .combine .meet .top (Built.empty.set 0 _)
  exact ⟨twoBuilt, oneBuilt, built_pointwise twoBuilt oneBuilt⟩

end Partition

end AliasTaint
