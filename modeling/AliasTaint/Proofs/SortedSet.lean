import AliasTaint.Proofs.Entries
import AliasTaint.Sorted.Set

/-!
# Members of sorted sets

A sorted set is determined by its members, and every operation on sets is described by the members
of its result.
-/

namespace AliasTaint.SortedSet

variable {K : Type} [Ord K]

section Membership

variable [DecidableEq K] {left right : SortedSet K} {member : K}

@[simp]
theorem contains_iff {set : SortedSet K} : set.contains member ↔ member ∈ set :=
  List.contains_iff_mem

theorem subset_iff : left.subset right ↔ ∀ member ∈ left, member ∈ right := by
  rw [subset, List.all_eq_true]
  exact forall₂_congr fun member _ => contains_iff

@[simp]
theorem mem_inter : member ∈ left.inter right ↔ member ∈ left ∧ member ∈ right :=
  List.mem_filter.trans (and_congr Iff.rfl contains_iff)

theorem subset_refl (set : SortedSet K) : set.subset set :=
  subset_iff.mpr fun _ isMember => isMember

theorem subset_trans {first second third : SortedSet K}
    (firstSubset : first.subset second) (secondSubset : second.subset third) :
    first.subset third := by
  rw [subset_iff] at firstSubset secondSubset ⊢
  intro member isMember
  exact secondSubset member (firstSubset member isMember)

theorem subset_inter_iff {set : SortedSet K} :
    set.subset (left.inter right) ↔ set.subset left ∧ set.subset right := by
  simp only [subset_iff, mem_inter, imp_and]
  exact forall_and

end Membership

section Lawful

variable [Std.TransOrd K] [Std.LawfulEqOrd K]

omit [Std.TransOrd K] in
theorem mem_insertInto {member found : K} {members : List K} :
    found ∈ insertInto member members ↔ found = member ∨ found ∈ members := by
  induction members with
  | nil =>
      simp [insertInto]
  | cons other rest inductionHypothesis =>
      simp only [insertInto]
      split
      · simp
      · rename_i same
        have memberEq : member = other := Std.LawfulEqOrd.eq_of_compare same
        simp [memberEq]
      · rw [List.mem_cons, List.mem_cons, inductionHypothesis]
        exact or_left_comm

theorem mem_insertAll {set : SortedSet K} {members : List K} {found : K} :
    found ∈ set.insertAll members ↔ found ∈ set ∨ found ∈ members := by
  induction members generalizing set with
  | nil =>
      simp [insertAll]
  | cons member rest inductionHypothesis =>
      have inserted : found ∈ set.insert member ↔ found = member ∨ found ∈ set :=
        mem_insertInto
      have restInserted : found ∈ (set.insert member).insertAll rest ↔ _ := inductionHypothesis
      rw [insertAll, List.foldl_cons]
      refine restInserted.trans ?_
      rw [inserted, List.mem_cons, or_assoc]
      exact or_left_comm

theorem mem_ofList {members : List K} {found : K} :
    found ∈ ofList members ↔ found ∈ members := by
  have nowhere : ¬ found ∈ (empty : SortedSet K) := List.not_mem_nil
  exact mem_insertAll.trans (or_iff_right nowhere)

@[simp]
theorem mem_union {left right : SortedSet K} {found : K} :
    found ∈ left.union right ↔ found ∈ left ∨ found ∈ right :=
  mem_insertAll

theorem union_subset_iff [DecidableEq K] {left right upper : SortedSet K} :
    (left.union right).subset upper ↔ left.subset upper ∧ right.subset upper := by
  simp only [subset_iff, mem_union, or_imp]
  exact forall_and

/-- Sets with the same members are the same set. -/
theorem ext_mem {left right : SortedSet K}
    (sameMembers : ∀ member, member ∈ left ↔ member ∈ right) :
    left = right :=
  ext_toList
    (Entries.eq_of_increasing_of_mem_iff id left.increasing right.increasing sameMembers)

theorem subset_antisymm [DecidableEq K] {left right : SortedSet K}
    (leftSubset : left.subset right) (rightSubset : right.subset left) :
    left = right := by
  rw [subset_iff] at leftSubset rightSubset
  exact ext_mem fun member => ⟨leftSubset member, rightSubset member⟩

/-- A set is what a larger one keeps of it. -/
theorem inter_eq_of_subset [DecidableEq K] {left right : SortedSet K}
    (isSubset : left.subset right) : right.inter left = left := by
  apply ext_mem
  intro member
  rw [mem_inter]
  exact and_iff_right_of_imp (subset_iff.mp isSubset member)

theorem size_le_of_subset [DecidableEq K] {left right : SortedSet K}
    (isSubset : left.subset right) : left.size ≤ right.size := by
  rw [← inter_eq_of_subset isSubset]
  exact List.length_filter_le _ _

theorem size_lt_of_subset [DecidableEq K] {left right : SortedSet K}
    (isSubset : left.subset right) (differ : left ≠ right) : left.size < right.size := by
  refine Nat.lt_of_le_of_ne (size_le_of_subset isSubset) ?_
  intro sameSize
  have sublist : (right.inter left).toList.Sublist right.toList := List.filter_sublist
  rw [inter_eq_of_subset isSubset] at sublist
  exact differ (ext_toList (sublist.eq_of_length sameSize))

end Lawful

end AliasTaint.SortedSet
