/-!
# Keyed entries in increasing order

A finite map is kept as the list of its entries, with strictly increasing keys. Two such lists that
bind the same keys to the same values are the same list, so equality of maps is equality of data.

The operations here work on plain lists of entries, because the children of a tree node are such a
list inside an inductive type. Each operation comes with the lemma that it keeps the keys increasing.
-/

namespace AliasTaint.Entries

variable {K A B : Type}

/-! ## The order of the keys -/

/-- The keys of the entries strictly increase. -/
def Increasing [Ord K] (entries : List (K × A)) : Prop :=
  entries.Pairwise fun first second => compare first.1 second.1 = .lt

/-- The entry with the smaller key goes first. -/
def keyLE [Ord K] (first second : K × A) : Bool :=
  (compare first.1 second.1).isLE

/-! ## Operations -/

/-- Binds a key, replacing the value it had. -/
def insert [Ord K] (key : K) (value : A) : List (K × A) → List (K × A)
  | [] => [(key, value)]
  | (otherKey, other) :: rest =>
      match compare key otherKey with
      | .lt => (key, value) :: (otherKey, other) :: rest
      | .eq => (key, value) :: rest
      | .gt => (otherKey, other) :: insert key value rest

/-- Removes the entry of a key, if there is one. -/
def erase [DecidableEq K] (key : K) (entries : List (K × A)) : List (K × A) :=
  entries.filter fun entry => entry.1 ≠ key

/-- The entries whose key is not bound in `others`. -/
def unboundIn [DecidableEq K] (others : List (K × B)) (entries : List (K × A)) : List (K × A) :=
  entries.filter fun entry => (others.lookup entry.1).isNone

/-- Puts two lists of entries together in the order of their keys. -/
def weave [Ord K] (left right : List (K × A)) : List (K × A) :=
  left.merge right keyLE

/-- Changes every value, dropping the entries whose new value is `none`. -/
def filterMapValues (change : K → A → Option B) (entries : List (K × A)) : List (K × B) :=
  entries.filterMap fun entry => (change entry.1 entry.2).map fun value => (entry.1, value)

/-- The entries of both lists; a key bound in both gets the combination of its two values. -/
def combine [Ord K] [DecidableEq K] (both : A → A → A) (left right : List (K × A)) :
    List (K × A) :=
  weave
    (left.map fun entry =>
      (entry.1, match right.lookup entry.1 with
        | some other => both entry.2 other
        | none => entry.2))
    (unboundIn left right)

/-! ## Members -/

theorem mem_of_lookup [DecidableEq K]
    {key : K} {found : A} {entries : List (K × A)}
    (isFound : entries.lookup key = some found) :
    (key, found) ∈ entries := by
  obtain ⟨before, after, split, _⟩ := List.lookup_eq_some_iff.mp isFound
  rw [split]
  exact List.mem_append_right before List.mem_cons_self

theorem mem_of_mem_filterMapValues
    {change : K → A → Option B} {entries : List (K × A)} {entry : K × B}
    (member : entry ∈ filterMapValues change entries) :
    ∃ source ∈ entries, source.1 = entry.1 ∧ change source.1 source.2 = some entry.2 := by
  obtain ⟨source, sourceMember, changed⟩ := List.mem_filterMap.mp member
  obtain ⟨value, isValue, rfl⟩ := Option.map_eq_some_iff.mp changed
  exact ⟨source, sourceMember, rfl, isValue⟩

theorem mem_weave [Ord K] {left right : List (K × A)} {entry : K × A} :
    entry ∈ weave left right ↔ entry ∈ left ∨ entry ∈ right := by
  simp [weave, List.mem_merge]

theorem unbound_ne [DecidableEq K]
    {others : List (K × B)} {entries : List (K × A)} {entry : K × A} {other : K × B}
    (member : entry ∈ unboundIn others entries) (otherMember : other ∈ others) :
    other.1 ≠ entry.1 := by
  intro same
  have unbound := (List.mem_filter.mp member).2
  rw [Option.isNone_iff_eq_none, List.lookup_eq_none_iff] at unbound
  simpa [same] using unbound other otherMember

/-! ## Increasing keys -/

section Keys

variable [Ord K]

theorem increasing_nil : Increasing ([] : List (K × A)) :=
  List.Pairwise.nil

theorem eq_or_mem_of_mem_insert
    {key : K} {value : A} {entries : List (K × A)} {entry : K × A}
    (member : entry ∈ insert key value entries) :
    entry = (key, value) ∨ entry ∈ entries := by
  induction entries with
  | nil => simpa [insert] using member
  | cons head rest inductionHypothesis =>
      obtain ⟨otherKey, other⟩ := head
      simp only [insert] at member
      split at member
      · simpa using member
      · rcases List.mem_cons.mp member with same | inRest
        · exact Or.inl same
        · exact Or.inr (List.mem_cons_of_mem _ inRest)
      · rcases List.mem_cons.mp member with same | inRest
        · exact Or.inr (same ▸ List.mem_cons_self)
        · rcases inductionHypothesis inRest with isNew | isOld
          · exact Or.inl isNew
          · exact Or.inr (List.mem_cons_of_mem _ isOld)

theorem Increasing.filter
    {entries : List (K × A)} (increasing : Increasing entries) (keep : K × A → Bool) :
    Increasing (entries.filter keep) :=
  List.Pairwise.filter keep increasing

theorem Increasing.erase [DecidableEq K]
    {entries : List (K × A)} (increasing : Increasing entries) (key : K) :
    Increasing (erase key entries) :=
  increasing.filter _

theorem Increasing.filterMapValues
    {entries : List (K × A)} (increasing : Increasing entries) (change : K → A → Option B) :
    Increasing (filterMapValues change entries) := by
  refine List.Pairwise.filterMap _ ?_ increasing
  intro first second smaller newFirst firstFound newSecond secondFound
  obtain ⟨firstValue, _, rfl⟩ := Option.map_eq_some_iff.mp firstFound
  obtain ⟨secondValue, _, rfl⟩ := Option.map_eq_some_iff.mp secondFound
  exact smaller

/-- Changing values under their keys keeps the keys increasing. -/
theorem Increasing.mapValues
    {entries : List (K × A)} (increasing : Increasing entries) (change : K × A → B) :
    Increasing (entries.map fun entry => (entry.1, change entry)) :=
  List.pairwise_map.mpr increasing

variable [Std.LawfulEqOrd K]

theorem ne_of_smaller
    {smallKey largeKey : K} (smaller : compare smallKey largeKey = .lt) :
    smallKey ≠ largeKey := by
  intro same
  have equal : compare smallKey largeKey = .eq := by
    rw [same]
    exact Std.ReflCmp.compare_self
  rw [equal] at smaller
  exact nomatch smaller

variable [Std.TransOrd K]

theorem Increasing.insert
    {entries : List (K × A)} (increasing : Increasing entries) (key : K) (value : A) :
    Increasing (insert key value entries) := by
  induction entries with
  | nil => exact List.pairwise_singleton _ _
  | cons head rest inductionHypothesis =>
      obtain ⟨otherKey, other⟩ := head
      have restIncreasing : Increasing rest := (List.pairwise_cons.mp increasing).2
      have headSmaller := (List.pairwise_cons.mp increasing).1
      simp only [Entries.insert]
      split
      · rename_i smaller
        refine List.pairwise_cons.mpr ⟨fun entry member => ?_, increasing⟩
        rcases List.mem_cons.mp member with same | inRest
        · exact same ▸ smaller
        · exact Std.TransCmp.lt_trans smaller (headSmaller entry inRest)
      · rename_i same
        have keyEq : key = otherKey := Std.LawfulEqOrd.eq_of_compare same
        subst keyEq
        exact List.pairwise_cons.mpr ⟨headSmaller, restIncreasing⟩
      · rename_i greater
        refine List.pairwise_cons.mpr
          ⟨fun entry member => ?_, inductionHypothesis restIncreasing⟩
        rcases eq_or_mem_of_mem_insert member with isNew | isOld
        · subst isNew
          exact Std.OrientedCmp.gt_iff_lt.mp greater
        · exact headSmaller entry isOld

/-- Two lists with increasing keys and no key in common weave into one. -/
theorem Increasing.weave
    {left right : List (K × A)}
    (leftIncreasing : Increasing left)
    (rightIncreasing : Increasing right)
    (disjoint : ∀ first ∈ left, ∀ second ∈ right, first.1 ≠ second.1) :
    Increasing (weave left right) := by
  have ordered :
      (left.merge right keyLE).Pairwise fun first second => keyLE first second = true := by
    refine List.pairwise_merge ?_ ?_ left right ?_ ?_
    · intro first second third firstLE secondLE
      exact Std.TransCmp.isLE_trans firstLE secondLE
    · intro first second
      simp only [keyLE, Bool.or_eq_true]
      cases order : compare first.1 second.1 with
      | lt => simp
      | eq => simp
      | gt => simp [Std.OrientedCmp.lt_of_gt order]
    · exact leftIncreasing.imp fun smaller => by simp [keyLE, smaller]
    · exact rightIncreasing.imp fun smaller => by simp [keyLE, smaller]
  have distinct :
      (left.merge right keyLE).Pairwise fun first second => first.1 ≠ second.1 := by
    refine (List.Perm.pairwise_iff ?_ (List.merge_perm_append keyLE)).mpr ?_
    · exact fun different => different.symm
    · refine List.pairwise_append.mpr ⟨?_, ?_, disjoint⟩
      · exact leftIncreasing.imp ne_of_smaller
      · exact rightIncreasing.imp ne_of_smaller
  refine (ordered.and distinct).imp ?_
  rintro first second ⟨atMost, different⟩
  simp only [keyLE] at atMost
  cases order : compare first.1 second.1 with
  | lt => rfl
  | eq => exact absurd (Std.LawfulEqOrd.eq_of_compare order) different
  | gt => simp [order] at atMost

theorem Increasing.combine [DecidableEq K]
    {left right : List (K × A)}
    (leftIncreasing : Increasing left)
    (rightIncreasing : Increasing right)
    (both : A → A → A) :
    Increasing (combine both left right) := by
  refine Increasing.weave (leftIncreasing.mapValues _) (rightIncreasing.filter _) ?_
  intro first firstMember second secondMember
  obtain ⟨entry, entryMember, rfl⟩ := List.mem_map.mp firstMember
  have different : entry.1 ≠ second.1 := unbound_ne secondMember entryMember
  exact different

end Keys

end AliasTaint.Entries
