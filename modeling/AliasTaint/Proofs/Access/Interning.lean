import AliasTaint.Access.Location
import AliasTaint.Proofs.Entries
import Mathlib.Data.List.Induction
import Mathlib.Data.List.Nodup

/-!
# Numbering roots

A root table keeps the names of roots in a list and their numbers in a map.  Whatever sequence of
calls mentions names, the list has the distinct names in the order of their first mention, and the map
gives each of them its place.  A number has 32 bits, so up to 2 ^ 32 names the map and the list are
inverse to each other; with one name more, two names share a number.
-/

namespace AliasTaint.RootTable

/-! ## Calls that mention a name -/

/-- A call that mentions a root by its name. -/
inductive Mention where
  | intern (name : String)
  | location (name : String)

def Mention.name : Mention → String
  | .intern name => name
  | .location name => name

/-- The number of the root that a call gives, and the table after it. -/
def mention (table : RootTable) : Mention → RootId × RootTable
  | .intern name => table.intern name
  | .location name => ((table.location name).1.root, (table.location name).2)

/-- A new table after some calls. -/
def after (mentions : List Mention) : RootTable :=
  mentions.foldl (fun table call => (table.mention call).2) empty

theorem mention_eq_intern (table : RootTable) (call : Mention) :
    table.mention call = table.intern call.name := by
  cases call <;> rfl

/-- The names of some calls, in the order in which they are first mentioned. -/
def firstMentions (mentions : List Mention) : List String :=
  (mentions.map Mention.name).eraseDups

/-! ## The list and the map -/

/-- The root with a place in the list of names; places are counted in 32 bits. -/
def rootAt (place : Nat) : RootId :=
  ⟨place.toUInt32⟩

/-- The names are distinct, and the map gives each its place in the list. -/
structure Consistent (table : RootTable) : Prop where
  distinct : table.names.Nodup
  get?_eq (name : String) :
    table.get? name =
      if name ∈ table.names then some (rootAt (table.names.idxOf name)) else none

theorem consistent_empty : empty.Consistent where
  distinct := List.nodup_nil
  get?_eq _ := rfl

variable {table : RootTable}

theorem Consistent.intern_of_mem (consistent : table.Consistent) {name : String}
    (known : name ∈ table.names) :
    table.intern name = (rootAt (table.names.idxOf name), table) := by
  rw [intern, consistent.get?_eq, if_pos known]

theorem Consistent.intern_of_notMem (consistent : table.Consistent) {name : String}
    (isNew : name ∉ table.names) :
    table.intern name =
      (rootAt table.names.length,
        ⟨table.names ++ [name], table.numbers.insert name (rootAt table.names.length)⟩) := by
  rw [intern, consistent.get?_eq, if_neg isNew]
  rfl

theorem Consistent.intern (consistent : table.Consistent) (name : String) :
    (table.intern name).2.Consistent := by
  by_cases known : name ∈ table.names
  · rw [consistent.intern_of_mem known]
    exact consistent
  · rw [consistent.intern_of_notMem known]
    constructor
    · rw [← List.concat_eq_append]
      exact consistent.distinct.concat known
    · intro other
      have inserted := Entries.lookup_insert name other (rootAt table.names.length)
        table.numbers.entries
      refine inserted.trans ?_
      by_cases isNew : other = name
      · simp [isNew, known, List.idxOf_append]
      · -- The places of the names that were there before do not change.
        have before : table.numbers.entries.lookup other = _ := consistent.get?_eq other
        rw [if_neg isNew, before]
        by_cases member : other ∈ table.names <;> simp [isNew, member, List.idxOf_append]

theorem consistent_after (mentions : List Mention) : (after mentions).Consistent := by
  induction mentions using List.reverseRecOn with
  | nil =>
      exact consistent_empty
  | append_singleton earlier call inductionHypothesis =>
      rw [after, List.foldl_append, List.foldl_cons, List.foldl_nil, mention_eq_intern]
      exact inductionHypothesis.intern call.name

/-! ## The order of first mention -/

theorem after_append_singleton (earlier : List Mention) (call : Mention) :
    after (earlier ++ [call]) = ((after earlier).mention call).2 := by
  rw [after, List.foldl_append]
  rfl

theorem mem_firstMentions {mentions : List Mention} {name : String} :
    name ∈ firstMentions mentions ↔ ∃ call ∈ mentions, call.name = name := by
  rw [firstMentions, List.mem_eraseDups, List.mem_map]

theorem firstMentions_append_singleton (earlier : List Mention) (call : Mention) :
    firstMentions (earlier ++ [call]) =
      if call.name ∈ firstMentions earlier then firstMentions earlier
      else firstMentions earlier ++ [call.name] := by
  rw [firstMentions, List.map_append, List.map_singleton, List.eraseDups_append, List.removeAll,
    List.filter_cons, List.filter_nil]
  split
  · rename_i isNew
    have notMentioned : call.name ∉ firstMentions earlier := by
      simpa [firstMentions] using isNew
    rw [if_neg notMentioned]
    rfl
  · rename_i known
    have mentioned : call.name ∈ firstMentions earlier := by
      simpa [firstMentions] using known
    rw [if_pos mentioned]
    exact List.append_nil _

theorem names_after (mentions : List Mention) :
    (after mentions).names = firstMentions mentions := by
  induction mentions using List.reverseRecOn with
  | nil =>
      rfl
  | append_singleton earlier call inductionHypothesis =>
      have consistent := consistent_after earlier
      rw [after_append_singleton, mention_eq_intern, firstMentions_append_singleton,
        ← inductionHypothesis]
      split
      · rename_i known
        rw [consistent.intern_of_mem known]
      · rename_i isNew
        rw [consistent.intern_of_notMem isNew]

/-- Later calls do not move a name that was mentioned. -/
theorem idxOf_firstMentions_append {earlier : List Mention} {name : String}
    (known : name ∈ firstMentions earlier) (later : List Mention) :
    (firstMentions (earlier ++ later)).idxOf name = (firstMentions earlier).idxOf name := by
  rw [firstMentions, List.map_append, List.eraseDups_append, List.idxOf_append]
  exact if_pos known

/-- A call is answered with the place of its name. -/
theorem mention_root_eq (earlier : List Mention) (call : Mention) (later : List Mention) :
    ((after earlier).mention call).1 =
      rootAt ((firstMentions (earlier ++ call :: later)).idxOf call.name) := by
  have consistent := consistent_after earlier
  have mentioned : call.name ∈ firstMentions (earlier ++ [call]) :=
    mem_firstMentions.mpr ⟨call, by simp, rfl⟩
  have split : earlier ++ call :: later = (earlier ++ [call]) ++ later := by simp
  rw [split, idxOf_firstMentions_append mentioned, firstMentions_append_singleton, mention_eq_intern,
    ← names_after]
  by_cases known : call.name ∈ (after earlier).names
  · rw [consistent.intern_of_mem known, if_pos known]
  · rw [consistent.intern_of_notMem known, if_neg known, List.idxOf_append, if_neg known,
      List.idxOf_cons_self, Nat.zero_add]

/-! ## Names and numbers -/

theorem toNat_rootAt {place : Nat} (fits : place < UInt32.size) : (rootAt place).number.toNat = place :=
  UInt32.toNat_ofNat'.trans (Nat.mod_eq_of_lt fits)

theorem rootAt_toNat (root : RootId) : rootAt root.number.toNat = root := by
  rw [rootAt, Nat.toUInt32, UInt32.ofNat_toNat]

theorem Consistent.get?_eq_some_iff (consistent : table.Consistent) {name : String} {root : RootId} :
    table.get? name = some root ↔ name ∈ table.names ∧ root = rootAt (table.names.idxOf name) := by
  rw [consistent.get?_eq]
  split
  · rename_i known
    simp [known, eq_comm]
  · rename_i isNew
    simp [isNew]

/-- As long as every place has a number of its own, the map and the list are inverse. -/
theorem Consistent.get?_eq_some_iff_name? (consistent : table.Consistent)
    (fits : table.names.length ≤ UInt32.size) {name : String} {root : RootId} :
    table.get? name = some root ↔ table.name? root = some name := by
  rw [consistent.get?_eq_some_iff, name?]
  constructor
  · rintro ⟨known, rfl⟩
    have inside : table.names.idxOf name < table.names.length := List.idxOf_lt_length_iff.mpr known
    rw [toNat_rootAt (Nat.lt_of_lt_of_le inside fits)]
    exact List.getElem?_idxOf known
  · intro found
    obtain ⟨inside, isName⟩ := List.getElem?_eq_some_iff.mp found
    have place : table.names.idxOf name = root.number.toNat := by
      rw [← isName]
      exact consistent.distinct.idxOf_getElem _ inside
    rw [place, rootAt_toNat]
    exact ⟨List.mem_of_getElem? found, rfl⟩

theorem Consistent.eq_of_get?_eq (consistent : table.Consistent)
    (fits : table.names.length ≤ UInt32.size) {first second : String} {root : RootId}
    (firstFound : table.get? first = some root) (secondFound : table.get? second = some root) :
    first = second := by
  rw [consistent.get?_eq_some_iff_name? fits] at firstFound secondFound
  exact Option.some.inj (firstFound.symm.trans secondFound)

/-- Numbers tell names apart exactly as long as there are not more names than numbers. -/
theorem get?_injective_iff_fits (mentions : List Mention) :
    (∀ first second root, (after mentions).get? first = some root →
        (after mentions).get? second = some root → first = second) ↔
      (firstMentions mentions).length ≤ UInt32.size := by
  have consistent := consistent_after mentions
  rw [← names_after]
  constructor
  · intro injective
    by_contra tooMany
    -- The names at the places 0 and 2 ^ 32 have the same number.
    have numberAt {place : Nat} (inside : place < (after mentions).names.length) :
        (after mentions).get? (after mentions).names[place] = some (rootAt place) := by
      refine consistent.get?_eq_some_iff.mpr ⟨List.getElem_mem inside, ?_⟩
      rw [consistent.distinct.idxOf_getElem]
    have firstInside : 0 < (after mentions).names.length := by omega
    have secondInside : UInt32.size < (after mentions).names.length := by omega
    have same := injective _ _ (rootAt 0) (numberAt firstInside) (numberAt secondInside)
    rw [consistent.distinct.getElem_inj_iff] at same
    exact absurd same (by decide)
  · intro fits first second root
    exact consistent.eq_of_get?_eq fits

/-- Whatever calls mention at most 2 ^ 32 names: every call is answered with the place of its name in
the order of first mention; numbers and names are inverse, so that distinct names have distinct
numbers; and an answer stays the answer for its name. -/
theorem numbered_by_first_mention (mentions : List Mention)
    (fits : (firstMentions mentions).length ≤ UInt32.size) :
    (after mentions).names = firstMentions mentions ∧
      (∀ name root,
        (after mentions).get? name = some root ↔ (after mentions).name? root = some name) ∧
      (∀ first second root, (after mentions).get? first = some root →
        (after mentions).get? second = some root → first = second) ∧
      ∀ earlier call later, mentions = earlier ++ call :: later →
        ∃ root, ((after earlier).mention call).1 = root ∧
          root.number.toNat = (firstMentions mentions).idxOf call.name ∧
          (after mentions).get? call.name = some root ∧
          (after mentions).name? root = some call.name ∧
          (after mentions).intern call.name = (root, after mentions) ∧
          (after mentions).location call.name = (.ofRoot root, after mentions) := by
  have consistent := consistent_after mentions
  rw [← names_after] at fits
  refine ⟨names_after mentions, fun name root => consistent.get?_eq_some_iff_name? fits,
    fun first second root => consistent.eq_of_get?_eq fits, ?_⟩
  rintro earlier call later rfl
  have known : call.name ∈ (after (earlier ++ call :: later)).names := by
    rw [names_after]
    exact mem_firstMentions.mpr ⟨call, by simp, rfl⟩
  have inside := List.idxOf_lt_length_iff.mpr known
  have answer := mention_root_eq earlier call later
  have interned := consistent.intern_of_mem known
  have found := consistent.get?_eq_some_iff.mpr ⟨known, rfl⟩
  rw [← names_after] at answer ⊢
  refine ⟨_, answer, toNat_rootAt (Nat.lt_of_lt_of_le inside fits), found,
    (consistent.get?_eq_some_iff_name? fits).mp found, interned, ?_⟩
  rw [location, interned]

/-- Names are mentioned by both calls and repeatedly. -/
theorem numbered_by_first_mention_repeated :
    let earlier : List Mention := [.intern "this", .location "x", .intern "this"]
    let later : List Mention := [.location "this", .intern "x", .intern "z"]
    ((after earlier).mention (.location "y")).1 = ⟨2⟩ ∧
      (after (earlier ++ .location "y" :: later)).get? "y" = some ⟨2⟩ ∧
      (after (earlier ++ .location "y" :: later)).name? ⟨2⟩ = some "y" := by
  intro earlier later
  have fits : (firstMentions (earlier ++ .location "y" :: later)).length ≤ UInt32.size := by decide
  obtain ⟨_, _, _, answers⟩ := numbered_by_first_mention _ fits
  obtain ⟨root, answer, place, found, named, _⟩ := answers earlier (.location "y") later rfl
  have isTwo : root = ⟨2⟩ := by
    rw [← rootAt_toNat root, place]
    decide
  rw [← isTwo]
  exact ⟨answer, found, named⟩

end AliasTaint.RootTable
