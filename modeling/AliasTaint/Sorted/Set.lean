/-!
# Sorted sets

A finite set over an ordered type, kept as the strictly increasing list of its members, so that
equality of sets is equality of data and the members are listed in one order only.
-/

namespace AliasTaint

/-- A finite set whose members are listed in increasing order. -/
structure SortedSet (K : Type) [Ord K] where
  toList : List K
  increasing : toList.Pairwise fun first second => compare first second = .lt

namespace SortedSet

variable {K : Type} [Ord K]

theorem ext_toList :
    {left right : SortedSet K} → left.toList = right.toList → left = right
  | ⟨_, _⟩, ⟨_, _⟩, rfl => rfl

instance [DecidableEq K] : DecidableEq (SortedSet K) := fun left right =>
  if same : left.toList = right.toList then
    isTrue (ext_toList same)
  else
    isFalse fun equal => same (congrArg toList equal)

instance : Membership K (SortedSet K) :=
  ⟨fun set member => member ∈ set.toList⟩

/-! ## Insertion into the list of members -/

/-- Puts a member at its place in an increasing list. -/
def insertInto (member : K) : List K → List K
  | [] => [member]
  | other :: rest =>
      match compare member other with
      | .lt => member :: other :: rest
      | .eq => member :: rest
      | .gt => other :: insertInto member rest

theorem eq_or_mem_of_mem_insertInto
    {member found : K} {members : List K}
    (isMember : found ∈ insertInto member members) :
    found = member ∨ found ∈ members := by
  induction members with
  | nil => simpa [insertInto] using isMember
  | cons other rest inductionHypothesis =>
      simp only [insertInto] at isMember
      split at isMember
      · simpa using isMember
      · rcases List.mem_cons.mp isMember with same | inRest
        · exact Or.inl same
        · exact Or.inr (List.mem_cons_of_mem _ inRest)
      · rcases List.mem_cons.mp isMember with same | inRest
        · exact Or.inr (same ▸ List.mem_cons_self)
        · rcases inductionHypothesis inRest with isNew | isOld
          · exact Or.inl isNew
          · exact Or.inr (List.mem_cons_of_mem _ isOld)

theorem increasing_insertInto [Std.TransOrd K] [Std.LawfulEqOrd K]
    (member : K) {members : List K}
    (increasing : members.Pairwise fun first second => compare first second = .lt) :
    (insertInto member members).Pairwise fun first second => compare first second = .lt := by
  induction members with
  | nil => exact List.pairwise_singleton _ _
  | cons other rest inductionHypothesis =>
      obtain ⟨otherSmaller, restIncreasing⟩ := List.pairwise_cons.mp increasing
      simp only [insertInto]
      split
      · rename_i smaller
        refine List.pairwise_cons.mpr ⟨fun found isMember => ?_, increasing⟩
        rcases List.mem_cons.mp isMember with same | inRest
        · exact same ▸ smaller
        · exact Std.TransCmp.lt_trans smaller (otherSmaller found inRest)
      · rename_i same
        have memberEq : member = other := Std.LawfulEqOrd.eq_of_compare same
        subst memberEq
        exact List.pairwise_cons.mpr ⟨otherSmaller, restIncreasing⟩
      · rename_i greater
        refine List.pairwise_cons.mpr
          ⟨fun found isMember => ?_, inductionHypothesis restIncreasing⟩
        rcases eq_or_mem_of_mem_insertInto isMember with isNew | isOld
        · subst isNew
          exact Std.OrientedCmp.gt_iff_lt.mp greater
        · exact otherSmaller found isOld

/-! ## Reading -/

def size (set : SortedSet K) : Nat :=
  set.toList.length

def isEmpty (set : SortedSet K) : Bool :=
  set.toList.isEmpty

def contains [DecidableEq K] (set : SortedSet K) (member : K) : Bool :=
  set.toList.contains member

/-- Every member of `left` is a member of `right`. -/
def subset [DecidableEq K] (left right : SortedSet K) : Bool :=
  left.toList.all right.contains

/-! ## Building -/

def empty : SortedSet K where
  toList := []
  increasing := List.Pairwise.nil

instance : EmptyCollection (SortedSet K) := ⟨empty⟩

/-- The members that satisfy a test. -/
def filter (set : SortedSet K) (keep : K → Bool) : SortedSet K where
  toList := set.toList.filter keep
  increasing := set.increasing.filter keep

def inter [DecidableEq K] (left right : SortedSet K) : SortedSet K :=
  left.filter right.contains

def diff [DecidableEq K] (left right : SortedSet K) : SortedSet K :=
  left.filter fun member => !right.contains member

variable [Std.TransOrd K] [Std.LawfulEqOrd K]

def insert (set : SortedSet K) (member : K) : SortedSet K where
  toList := insertInto member set.toList
  increasing := increasing_insertInto member set.increasing

def insertAll (set : SortedSet K) (members : List K) : SortedSet K :=
  members.foldl insert set

def ofList (members : List K) : SortedSet K :=
  empty.insertAll members

def singleton (member : K) : SortedSet K :=
  ofList [member]

def union (left right : SortedSet K) : SortedSet K :=
  left.insertAll right.toList

end SortedSet

end AliasTaint
