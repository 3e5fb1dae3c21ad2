import AliasTaint.Proofs.Cumulative
import AliasTaint.Proofs.Value.Obtained

/-!
# Accumulating positions

Positions are added to a set one by one, by taking over another set, or by a join.  Each of the three
compares the number of listed positions with the limit on its own.  Over a whole sequence of additions
it does not matter when the limit is first passed, in which order the positions come or how often: the
result is settled by the union of all positions and by whether some set was widened before.
-/

namespace AliasTaint.PositionSet

variable {heuristics : Heuristics}

/-- The positions that a set lists; a bottom or widened set lists none. -/
def listing : PositionSet heuristics → SortedSet Position
  | .listed positions => positions
  | _ => ∅

/-- The widened set if `beyond` says so or if there are too many positions, else the positions. -/
def capped (beyond : Bool) (positions : SortedSet Position) : PositionSet heuristics :=
  if beyond then .widened else limited positions

/-! ## Additions -/

/-- One way of adding positions to a set. -/
inductive Addition (heuristics : Heuristics) where
  | add (position : Position)
  | addAll (others : PositionSet heuristics)
  | join (others : PositionSet heuristics)

/-- The set that an addition brings. -/
def Addition.brought : Addition heuristics → PositionSet heuristics
  | .add position => .listed (.singleton position)
  | .addAll others => others
  | .join others => others

def apply (positions : PositionSet heuristics) : Addition heuristics → PositionSet heuristics
  | .add position => positions.add position
  | .addAll others => positions.addAll others
  | .join others => positions.join others

/-- The set after some additions, one after the other. -/
def accumulate (start : PositionSet heuristics) (additions : List (Addition heuristics)) :
    PositionSet heuristics :=
  additions.foldl apply start

/-- All positions that a set lists or that some addition brings. -/
def involved (start : PositionSet heuristics) (additions : List (Addition heuristics)) :
    SortedSet Position :=
  additions.foldl (fun gathered addition => gathered.union addition.brought.listing) start.listing

theorem mem_foldl_union_listing {position : Position} {gathered : SortedSet Position}
    {additions : List (Addition heuristics)} :
    position ∈ additions.foldl
        (fun gathered addition => gathered.union addition.brought.listing) gathered ↔
      position ∈ gathered ∨ ∃ addition ∈ additions, position ∈ addition.brought.listing := by
  induction additions generalizing gathered with
  | nil =>
      simp
  | cons addition rest inductionHypothesis =>
      rw [List.foldl_cons, inductionHypothesis, SortedSet.mem_union, List.exists_mem_cons_iff, or_assoc]

theorem mem_involved {start : PositionSet heuristics} {additions : List (Addition heuristics)}
    {position : Position} :
    position ∈ involved start additions ↔
      position ∈ start.listing ∨ ∃ addition ∈ additions, position ∈ addition.brought.listing :=
  mem_foldl_union_listing

/-! ## One addition -/

/-- Each of the three ways adds as a join does, unless the set is bottom. -/
theorem apply_eq_join {positions : PositionSet heuristics} (filled : positions ≠ .bottom)
    (addition : Addition heuristics) : positions.apply addition = positions.join addition.brought := by
  cases addition with
  | add position =>
      rw [apply, add_eq_addAll, addAll_eq_join filled]
      rfl
  | addAll others =>
      exact addAll_eq_join filled others
  | join others =>
      rfl

theorem capped_ne_bottom (beyond : Bool) (positions : SortedSet Position) :
    (capped beyond positions : PositionSet heuristics) ≠ .bottom := by
  unfold capped limited
  split
  · exact nofun
  · split <;> exact nofun

theorem join_widened (positions : PositionSet heuristics) : join positions .widened = .widened := by
  cases positions <;> rfl

/-- Whether the limit was passed before or is passed now, the result is the same. -/
theorem capped_join (beyond : Bool) (positions : SortedSet Position)
    (others : PositionSet heuristics) :
    join (capped beyond positions) others =
      capped (beyond || others.isWidened) (positions.union others.listing) := by
  cases beyond with
  | true =>
      cases others <;> rfl
  | false =>
      cases others with
      | bottom =>
          exact join_bottom _
      | widened =>
          exact join_widened _
      | listed others =>
          exact limited_join_listed positions others

theorem capped_apply (beyond : Bool) (positions : SortedSet Position)
    (addition : Addition heuristics) :
    apply (capped beyond positions) addition =
      capped (beyond || addition.brought.isWidened) (positions.union addition.brought.listing) := by
  rw [apply_eq_join (capped_ne_bottom beyond positions), capped_join]

/-- A set within the limit and above bottom is capped already. -/
theorem eq_capped {positions : PositionSet heuristics} (filled : positions ≠ .bottom)
    (formed : positions.WellFormed) : positions = capped positions.isWidened positions.listing := by
  cases positions with
  | bottom =>
      exact absurd rfl filled
  | widened =>
      rfl
  | listed positions =>
      exact (if_neg (Nat.not_lt.mpr formed)).symm

/-! ## Many additions -/

theorem foldl_apply_capped (beyond : Bool) (positions : SortedSet Position)
    (additions : List (Addition heuristics)) :
    additions.foldl apply (capped beyond positions) =
      capped (beyond || additions.any fun addition => addition.brought.isWidened)
        (additions.foldl
          (fun gathered addition => gathered.union addition.brought.listing) positions) := by
  induction additions generalizing beyond positions with
  | nil =>
      simp
  | cons addition rest inductionHypothesis =>
      rw [List.foldl_cons, capped_apply, inductionHypothesis, List.foldl_cons, List.any_cons,
        Bool.or_assoc]

theorem accumulate_eq_capped {start : PositionSet heuristics} (filled : start ≠ .bottom)
    (formed : start.WellFormed) (additions : List (Addition heuristics)) :
    accumulate start additions =
      capped (start.isWidened || additions.any fun addition => addition.brought.isWidened)
        (involved start additions) := by
  have run := foldl_apply_capped start.isWidened start.listing additions
  rw [← eq_capped filled formed] at run
  exact run

theorem involved_eq_of_perm (start : PositionSet heuristics)
    {order additions : List (Addition heuristics)} (permuted : order.Perm additions) :
    involved start order = involved start additions := by
  apply SortedSet.ext_mem
  intro position
  simp only [mem_involved, permuted.mem_iff]

/-- Additions to a set above bottom and within the limit give, in any order, the widened set if it
or a set that is brought is widened or if more positions are involved than the limit allows, and
otherwise exactly the positions involved. -/
theorem accumulate_in_any_order {start : PositionSet heuristics} (filled : start ≠ .bottom)
    (formed : start.WellFormed) {order additions : List (Addition heuristics)}
    (permuted : order.Perm additions) :
    accumulate start order =
        (if start = .widened ∨ (∃ addition ∈ additions, addition.brought = .widened) ∨
            heuristics.maxPositions.toNat < (involved start additions).size then
          .widened
        else
          .listed (involved start additions)) ∧
      ∀ position, position ∈ involved start additions ↔
        position ∈ start.listing ∨ ∃ addition ∈ additions, position ∈ addition.brought.listing := by
  refine ⟨?_, fun position => mem_involved⟩
  rw [accumulate_eq_capped filled formed, involved_eq_of_perm start permuted, permuted.any_eq]
  by_cases beyond : start.isWidened || additions.any fun addition => addition.brought.isWidened
  · have isWidened : start = .widened ∨ ∃ addition ∈ additions, addition.brought = .widened := by
      simpa [PositionSet.isWidened] using beyond
    rw [capped, if_pos beyond, if_pos (or_assoc.mp (Or.inl isWidened))]
  · have notWidened : ¬(start = .widened ∨ ∃ addition ∈ additions, addition.brought = .widened) := by
      simpa [PositionSet.isWidened] using beyond
    rw [capped, if_neg beyond, limited]
    refine if_congr ?_ rfl rfl
    rw [← or_assoc, or_iff_right notWidened]

/-- With a limit of two, repeated positions stay listed in either order, and a third one widens. -/
theorem accumulate_in_any_order_at_limit :
    let first : Position := ⟨"A.java", 1⟩
    let second : Position := ⟨"A.java", 2⟩
    let start : PositionSet ⟨4, 2, 1⟩ := .listed (.singleton first)
    let repeated : List (Addition ⟨4, 2, 1⟩) :=
      [.add second, .addAll start, .join (.listed (.ofList [second, first]))]
    accumulate start repeated.reverse = .listed (.ofList [first, second]) ∧
      accumulate start (repeated ++ [.add ⟨"A.java", 3⟩]) = .widened := by
  intro first second start repeated
  have filled : start ≠ .bottom := nofun
  have formed : start.WellFormed := by decide
  refine ⟨(accumulate_in_any_order filled formed repeated.reverse_perm).1.trans ?_,
    (accumulate_in_any_order filled formed (List.Perm.refl _)).1.trans ?_⟩
  · decide
  · decide

end AliasTaint.PositionSet
