import AliasTaint.Sorted.Map

/-!
# Looking up keyed entries

In a list with strictly increasing keys, to look up a key is to ask for membership.  Every operation
on entries is therefore described by what it does to look-ups, and two such lists with the same
look-ups are the same list.
-/

namespace AliasTaint.Entries

variable {K A B : Type} [DecidableEq K]

/-! ## Look-ups without an order -/

theorem lookup_cons_of_ne
    {key entryKey : K} (different : key ≠ entryKey) (value : A) (rest : List (K × A)) :
    ((entryKey, value) :: rest).lookup key = rest.lookup key := by
  rw [List.lookup_cons, beq_eq_false_iff_ne.mpr different]

theorem lookup_filter_key
    (keep : K → Bool) (key : K) (entries : List (K × A)) :
    (entries.filter fun entry => keep entry.1).lookup key =
      if keep key then entries.lookup key else none := by
  induction entries with
  | nil =>
      simp
  | cons entry rest inductionHypothesis =>
      obtain ⟨entryKey, value⟩ := entry
      by_cases same : key = entryKey
      · subst same
        by_cases kept : keep key
        · simp [kept]
        · simpa [kept] using inductionHypothesis
      · by_cases kept : keep entryKey
        · simpa [kept, lookup_cons_of_ne same] using inductionHypothesis
        · simpa [kept, lookup_cons_of_ne same] using inductionHypothesis

theorem lookup_erase
    (erased key : K) (entries : List (K × A)) :
    (erase erased entries).lookup key =
      if key = erased then none else entries.lookup key := by
  have filtered := lookup_filter_key (fun other => decide (other ≠ erased)) key entries
  rw [erase, filtered]
  by_cases same : key = erased <;> simp [same]

theorem lookup_unboundIn
    (others : List (K × B)) (key : K) (entries : List (K × A)) :
    (unboundIn others entries).lookup key =
      if (others.lookup key).isSome then none else entries.lookup key := by
  have filtered :=
    lookup_filter_key (fun other => (others.lookup other).isNone) key entries
  rw [unboundIn, filtered]
  cases others.lookup key <;> simp

theorem lookup_mapValues
    (change : K → A → B) (key : K) (entries : List (K × A)) :
    (entries.map fun entry => (entry.1, change entry.1 entry.2)).lookup key =
      (entries.lookup key).map (change key) := by
  induction entries with
  | nil =>
      rfl
  | cons entry rest inductionHypothesis =>
      obtain ⟨entryKey, value⟩ := entry
      by_cases same : key = entryKey
      · subst same
        simp
      · simpa [lookup_cons_of_ne same] using inductionHypothesis

variable [Ord K] [Std.LawfulEqOrd K]

theorem lookup_insert
    (inserted key : K) (value : A) (entries : List (K × A)) :
    (insert inserted value entries).lookup key =
      if key = inserted then some value else entries.lookup key := by
  induction entries with
  | nil =>
      by_cases same : key = inserted
      · simp [insert, same]
      · simp [insert, same, lookup_cons_of_ne same]
  | cons entry rest inductionHypothesis =>
      obtain ⟨entryKey, other⟩ := entry
      simp only [insert]
      split
      · by_cases same : key = inserted
        · simp [same]
        · simp [same, lookup_cons_of_ne same]
      · rename_i equal
        have sameKey : inserted = entryKey := Std.LawfulEqOrd.eq_of_compare equal
        subst sameKey
        by_cases same : key = inserted
        · simp [same]
        · simp [same, lookup_cons_of_ne same]
      · rename_i greater
        have different : inserted ≠ entryKey := by
          intro sameKey
          rw [sameKey, Std.ReflOrd.compare_self] at greater
          cases greater
        by_cases atEntry : key = entryKey
        · subst atEntry
          simp [different.symm]
        · rw [lookup_cons_of_ne atEntry, lookup_cons_of_ne atEntry, inductionHypothesis]

/-! ## Look-ups in increasing lists -/

theorem Increasing.lookup_eq_some_iff
    {entries : List (K × A)} (increasing : Increasing entries) {key : K} {value : A} :
    entries.lookup key = some value ↔ (key, value) ∈ entries := by
  constructor
  · exact mem_of_lookup
  · intro member
    induction entries with
    | nil =>
        exact nomatch member
    | cons entry rest inductionHypothesis =>
        obtain ⟨entryKey, other⟩ := entry
        obtain ⟨entrySmaller, restIncreasing⟩ := List.pairwise_cons.mp increasing
        rcases List.mem_cons.mp member with same | inRest
        · cases same
          simp
        · have different : key ≠ entryKey :=
            (ne_of_smaller (entrySmaller _ inRest)).symm
          rw [lookup_cons_of_ne different]
          exact inductionHypothesis restIncreasing inRest

theorem Increasing.lookup_filterMapValues
    {entries : List (K × A)} (increasing : Increasing entries)
    (change : K → A → Option B) (key : K) :
    (Entries.filterMapValues change entries).lookup key =
      (entries.lookup key).bind (change key) := by
  apply Option.ext
  intro value
  rw [(increasing.filterMapValues change).lookup_eq_some_iff, Option.bind_eq_some_iff]
  constructor
  · intro member
    obtain ⟨source, sourceMember, sourceKey, changed⟩ := mem_of_mem_filterMapValues member
    obtain ⟨entryKey, original⟩ := source
    subst sourceKey
    exact ⟨original, increasing.lookup_eq_some_iff.mpr sourceMember, changed⟩
  · rintro ⟨original, found, changed⟩
    refine List.mem_filterMap.mpr ⟨(key, original), mem_of_lookup found, ?_⟩
    simp [changed]

variable [Std.TransOrd K]

theorem Increasing.lookup_weave
    {left right : List (K × A)}
    (leftIncreasing : Increasing left)
    (rightIncreasing : Increasing right)
    (disjoint : ∀ first ∈ left, ∀ second ∈ right, first.1 ≠ second.1)
    (key : K) :
    (Entries.weave left right).lookup key = (left.lookup key).or (right.lookup key) := by
  have woven := leftIncreasing.weave rightIncreasing disjoint
  apply Option.ext
  intro value
  rw [woven.lookup_eq_some_iff, mem_weave, Option.or_eq_some_iff,
    leftIncreasing.lookup_eq_some_iff, rightIncreasing.lookup_eq_some_iff]
  constructor
  · rintro (inLeft | inRight)
    · exact Or.inl inLeft
    · refine Or.inr ⟨List.lookup_eq_none_iff.mpr ?_, inRight⟩
      intro first firstMember
      simpa using (disjoint first firstMember (key, value) inRight).symm
  · rintro (inLeft | ⟨_, inRight⟩)
    · exact Or.inl inLeft
    · exact Or.inr inRight

theorem Increasing.lookup_woven
    {left right : List (K × A)}
    (leftIncreasing : Increasing left)
    (rightIncreasing : Increasing right)
    (changeLeft changeRight : K → A → Option B) (key : K) :
    (Entries.weave (Entries.filterMapValues changeLeft left)
        (Entries.filterMapValues changeRight (unboundIn left right))).lookup key =
      match left.lookup key with
      | some value => changeLeft key value
      | none => (right.lookup key).bind (changeRight key) := by
  have unboundIncreasing : Increasing (unboundIn left right) := rightIncreasing.filter _
  rw [(leftIncreasing.filterMapValues changeLeft).lookup_weave
      (unboundIncreasing.filterMapValues changeRight),
    leftIncreasing.lookup_filterMapValues, unboundIncreasing.lookup_filterMapValues,
    lookup_unboundIn]
  · cases left.lookup key <;> simp
  · intro first firstMember second secondMember
    obtain ⟨leftSource, leftMember, leftKey, _⟩ := mem_of_mem_filterMapValues firstMember
    obtain ⟨rightSource, rightMember, rightKey, _⟩ := mem_of_mem_filterMapValues secondMember
    rw [← leftKey, ← rightKey]
    exact unbound_ne rightMember leftMember

theorem Increasing.lookup_combine
    {left right : List (K × A)}
    (leftIncreasing : Increasing left)
    (rightIncreasing : Increasing right)
    (both : A → A → A) (key : K) :
    (Entries.combine both left right).lookup key =
      match left.lookup key, right.lookup key with
      | some value, some other => some (both value other)
      | some value, none => some value
      | none, found => found := by
  have mapped := lookup_mapValues
    (fun other value => match right.lookup other with
      | some found => both value found
      | none => value) key left
  have unboundIncreasing : Increasing (unboundIn left right) := rightIncreasing.filter _
  rw [Entries.combine, (leftIncreasing.mapValues _).lookup_weave unboundIncreasing,
    lookup_unboundIn]
  · refine (congrArg (fun found => Option.or found _) mapped).trans ?_
    cases left.lookup key <;> cases right.lookup key <;> simp
  · intro first firstMember second secondMember
    obtain ⟨source, sourceMember, rfl⟩ := List.mem_map.mp firstMember
    have different : source.1 ≠ second.1 := unbound_ne secondMember sourceMember
    exact different

omit [DecidableEq K] in
/-- Two lists that strictly increase by a key and have the same members are the same list. -/
theorem eq_of_increasing_of_mem_iff
    (keyOf : A → K) {left right : List A}
    (leftIncreasing :
      left.Pairwise fun first second => compare (keyOf first) (keyOf second) = .lt)
    (rightIncreasing :
      right.Pairwise fun first second => compare (keyOf first) (keyOf second) = .lt)
    (sameMembers : ∀ member, member ∈ left ↔ member ∈ right) :
    left = right := by
  have irreflexive (member : A) : compare (keyOf member) (keyOf member) ≠ .lt := by
    rw [Std.ReflOrd.compare_self]
    exact nofun
  have distinct {members : List A}
      (increasing :
        members.Pairwise fun first second => compare (keyOf first) (keyOf second) = .lt) :
      members.Nodup := by
    refine increasing.imp ?_
    intro first second smaller same
    rw [← same] at smaller
    exact irreflexive first smaller
  have permutation : left.Perm right :=
    (List.perm_ext_iff_of_nodup (distinct leftIncreasing) (distinct rightIncreasing)).mpr
      sameMembers
  refine permutation.eq_of_pairwise ?_ leftIncreasing rightIncreasing
  intro first second _ _ smaller greater
  exact absurd (Std.TransCmp.lt_trans smaller greater) (irreflexive first)

theorem Increasing.eq_of_lookup_eq
    {left right : List (K × A)}
    (leftIncreasing : Increasing left)
    (rightIncreasing : Increasing right)
    (sameLookup : ∀ key, left.lookup key = right.lookup key) :
    left = right := by
  refine eq_of_increasing_of_mem_iff Prod.fst leftIncreasing rightIncreasing ?_
  rintro ⟨key, value⟩
  rw [← leftIncreasing.lookup_eq_some_iff, ← rightIncreasing.lookup_eq_some_iff, sameLookup key]

end AliasTaint.Entries
