import AliasTaint.Proofs.Taint.Equality
import AliasTaint.Proofs.Tree.Fresh

/-!
# Collapsing at a height

A collapse at a height moves taint that is stored deeper up to that height, and marks it.  What is
shown at shorter paths stays as it is.  At a path that reaches the height, the collapsed tree shows
what the tree showed where the path passes the height, joined with the marked taint from everywhere
below; how the path goes on from there makes no difference any more.

Taint that is not moved is not marked, and a tree that is no higher than the height is the same tree
afterwards.
-/

namespace AliasTaint

open Domain

variable {heuristics : Heuristics}

namespace TaintTree

/-! ## Taint below a path -/

/-- The taint that is stored strictly below a path. -/
def storedBelow (tree : TaintTree heuristics) (path : Path) : List (Taint heuristics) :=
  (tree.visit.filter fun stored => path <+: stored.1 ∧ stored.1 ≠ path).map Prod.snd

theorem mem_storedBelow_iff {tree : TaintTree heuristics} {path : Path}
    {taint : Taint heuristics} :
    taint ∈ tree.storedBelow path ↔
      ∃ below, below ≠ [] ∧ tree.stored (path ++ below) = taint ∧
        Domain.isBottom taint = false := by
  have visited {other : Path} : (other, taint) ∈ tree.visit ↔
      tree.stored other = taint ∧ Domain.isBottom taint = false :=
    Node.mem_visit_iff rfl tree.tree.ordered
  simp only [storedBelow, List.mem_map, List.mem_filter, decide_eq_true_eq, Prod.exists]
  constructor
  · rintro ⟨_, _, ⟨isVisited, ⟨below, rfl⟩, further⟩, rfl⟩
    refine ⟨below, ?_, visited.mp isVisited⟩
    rintro rfl
    exact further (List.append_nil path)
  · rintro ⟨below, nonempty, isStored⟩
    refine ⟨path ++ below, taint, ⟨visited.mpr isStored, List.prefix_append path below, ?_⟩, rfl⟩
    exact mt List.append_right_eq_self.mp nonempty

/-- Bottom taint is not listed, but it is inside anyway. -/
theorem forall_mem_storedBelow_iff {tree : TaintTree heuristics}
    (Inside : Taint heuristics → Prop) (bottomInside : Inside Domain.bottom) {path : Path} :
    (∀ taint ∈ tree.storedBelow path, Inside taint) ↔
      ∀ below, below ≠ [] → Inside (tree.stored (path ++ below)) := by
  simp only [mem_storedBelow_iff]
  constructor
  · intro all below nonempty
    cases filled : Domain.isBottom (tree.stored (path ++ below)) with
    | false =>
        exact all _ ⟨below, nonempty, rfl, filled⟩
    | true =>
        rw [CumulativeDomain.isBottom_iff.mp filled]
        exact bottomInside
  · rintro all _ ⟨below, nonempty, rfl, _⟩
    exact all below nonempty

/-! ## What a collapsed tree shows -/

section Shown

variable {tree : TaintTree heuristics} (formed : tree.WellFormed)

include formed

theorem wellFormed_storedBelow (path : Path) :
    ∀ taint ∈ tree.storedBelow path, taint.WellFormed :=
  (forall_mem_storedBelow_iff Taint.WellFormed JoinClosed.bottom).mpr
    fun below _ => formed.stored (path ++ below)

theorem wellFormed_collapseDeeperThan (height : Nat) :
    (tree.collapseDeeperThan height).WellFormed :=
  stores_collapseDeeperThan admits_mark formed height

theorem inside_view_iff_stored {Inside : Taint heuristics → Prop}
    (ideal : Ideal Taint.WellFormed Inside) (path : Path) :
    Inside (tree.view path) ↔ ∀ above, above <+: path → Inside (tree.stored above) :=
  (Node.inside_view_iff ideal formed path).trans Node.allAlong_iff_stored

theorem inside_view_collapseDeeperThan_iff {Inside : Taint heuristics → Prop}
    (ideal : Ideal Taint.WellFormed Inside) {height : Nat} {path : Path}
    (reached : height ≤ path.length) :
    Inside ((tree.collapseDeeperThan height).view path) ↔
      Inside (tree.view (path.take height)) ∧
        ∀ taint ∈ tree.storedBelow (path.take height), Inside (markCollapsed taint) := by
  have marks := ideal.comap joinMapOn_mark
  have hoisted : Inside ((tree.collapseDeeperThan height).view path) ↔
      tree.tree.node.AllHoisted Inside (fun taint => Inside (markCollapsed taint)) height path :=
    (Node.inside_view_iff ideal (wellFormed_collapseDeeperThan formed height) path).trans
      (allAlong_collapseDeeperThan_iff admits_mark formed ideal height path)
  refine hoisted.trans
    (Iff.trans (Node.allHoisted_iff_stored ?_ tree.tree.ordered height path) ?_)
  · exact marks.bottom
  · rw [inside_view_iff_stored formed ideal,
      forall_mem_storedBelow_iff (fun taint => Inside (markCollapsed taint)) marks.bottom]
    simp only [List.prefix_take_iff, and_imp, reached, forall_const]
    exact Iff.rfl

theorem view_collapseDeeperThan_of_lt {height : Nat} {path : Path} (short : path.length < height) :
    (tree.collapseDeeperThan height).view path = tree.view path := by
  refine Node.eq_view_of_allAlong_iff (wellFormed_collapseDeeperThan formed height)
    (good_view formed path) fun upper goodUpper => ?_
  have ideal := ideal_leq goodUpper
  rw [allAlong_collapseDeeperThan_iff admits_mark formed ideal,
    Node.allHoisted_iff_of_length_lt short]
  exact (Node.inside_view_iff ideal formed path).symm

theorem view_collapseDeeperThan_of_le {height : Nat} {path : Path}
    (reached : height ≤ path.length) :
    (tree.collapseDeeperThan height).view path =
      Domain.join (tree.view (path.take height))
        (joinAll ((tree.storedBelow (path.take height)).map markCollapsed)) := by
  have goodAbove := good_view formed (path.take height)
  have goodMarked : ∀ taint ∈ (tree.storedBelow (path.take height)).map markCollapsed,
      taint.WellFormed :=
    List.forall_mem_map.mpr fun taint member =>
      joinMapOn_mark.good (wellFormed_storedBelow formed _ taint member)
  have goodBelow := good_joinAll goodMarked
  refine SemilatticeOn.eq_of_leq_iff
    (good_view (wellFormed_collapseDeeperThan formed height) path)
    (JoinClosed.join goodAbove goodBelow) fun upper goodUpper => ?_
  have ideal := ideal_leq goodUpper
  rw [inside_view_collapseDeeperThan_iff formed ideal reached, ideal.join_iff goodAbove goodBelow,
    ideal.joinAll_iff goodMarked, List.forall_mem_map]

/-- Marks only add to what is shown. -/
theorem leq_collapseDeeperThan (height : Nat) : tree.leq (tree.collapseDeeperThan height) := by
  have collapsedFormed := wellFormed_collapseDeeperThan formed height
  refine (leq_iff_view_leq formed collapsedFormed).mpr fun path => ?_
  have goodUpper := good_view collapsedFormed path
  have ideal := ideal_leq goodUpper
  have unmarked (taint : Taint heuristics) (taintFormed : taint.WellFormed)
      (markedShown : Domain.leq (markCollapsed taint)
        ((tree.collapseDeeperThan height).view path)) :
      Domain.leq taint ((tree.collapseDeeperThan height).view path) :=
    SemilatticeOn.leq_trans taintFormed (joinMapOn_mark.good taintFormed) goodUpper
      (leq_markCollapsed admits_mark taintFormed) markedShown
  have hoisted := (allAlong_collapseDeeperThan_iff admits_mark formed ideal height path).mp
    ((Node.inside_view_iff ideal collapsedFormed path).mp (SemilatticeOn.leq_refl goodUpper))
  exact (Node.inside_view_iff ideal formed path).mpr
    (hoisted.allAlong unmarked (ideal.comap joinMapOn_mark).bottom formed)

end Shown

theorem Normal.collapseDeeperThan_eq {tree : TaintTree heuristics} (normal : tree.Normal)
    {height : Nat} (low : tree.height ≤ height) : tree.collapseDeeperThan height = tree := by
  have flat : tree.tree.node.flattenAt markCollapsed height = tree.tree.node :=
    Node.flattenAt_of_height_le markCollapsed low
  have unchanged : tree.tree.node.normalize policy.sink = tree.tree.node :=
    Node.NormalUnder.normalize_eq tree.tree.ordered normal.normal
  have sameNode : (tree.collapseDeeperThan height).tree.node = tree.tree.node :=
    (congrArg (Node.normalize policy.sink) flat).trans unchanged
  exact congrArg mk (Tree.ext_node sameNode)

/-- A collapse at a height leaves a tree of that height at most, which covers the tree before.  What
is shown above the height stays.  From the height on, the tree shows what it showed there, and
everything that was stored below with the mark.  A tree that is low enough is not changed. -/
theorem collapseDeeperThan_effect {tree : TaintTree heuristics} (normal : tree.Normal)
    (height : Nat) :
    (tree.collapseDeeperThan height).height ≤ height ∧
    (∀ path : Path, path.length < height →
      (tree.collapseDeeperThan height).view path = tree.view path) ∧
    (∀ path : Path, height ≤ path.length →
      (tree.collapseDeeperThan height).view path =
        Domain.join (tree.view (path.take height))
          (joinAll ((tree.storedBelow (path.take height)).map markCollapsed))) ∧
    tree.leq (tree.collapseDeeperThan height) ∧
    (tree.height ≤ height → tree.collapseDeeperThan height = tree) :=
  ⟨height_collapseDeeperThan_le tree height,
    fun _ => view_collapseDeeperThan_of_lt normal.wellFormed,
    fun _ => view_collapseDeeperThan_of_le normal.wellFormed,
    leq_collapseDeeperThan normal.wellFormed height,
    normal.collapseDeeperThan_eq⟩

/-- Taint of three kinds, each one step below the last. -/
def nestedElements : List (Path × Taint .standard) :=
  [([], .ofKind ⟨"A"⟩), ([.anyIndex], .ofKind ⟨"B"⟩), ([.anyIndex, .anyIndex], .ofKind ⟨"C"⟩)]

theorem collapseDeeperThan_effect_nested :
    (ofEdges nestedElements).Normal ∧ (ofEdges nestedElements).height = 2 ∧
    ((ofEdges nestedElements).collapseDeeperThan 1).height ≤ 1 ∧
    ((ofEdges nestedElements).collapseDeeperThan 1).view [] = .ofKind ⟨"A"⟩ ∧
    ((ofEdges nestedElements).collapseDeeperThan 1).view [.anyIndex, .anyIndex] =
      Domain.join ((ofEdges nestedElements).view [.anyIndex])
        (joinAll [markCollapsed (.ofKind ⟨"C"⟩)]) ∧
    (ofEdges nestedElements).collapseDeeperThan 2 = ofEdges nestedElements := by
  have normal : (ofEdges nestedElements).Normal := normal_ofEdges (of_decide_eq_true (by cbv))
  have height_eq : (ofEdges nestedElements).height = 2 := by cbv
  have below : (ofEdges nestedElements).storedBelow [.anyIndex] = [.ofKind ⟨"C"⟩] := by cbv
  obtain ⟨low, above, reached, _, _⟩ := collapseDeeperThan_effect normal 1
  obtain ⟨_, _, _, _, unchanged⟩ := collapseDeeperThan_effect normal 2
  refine ⟨normal, height_eq, low, (above [] Nat.one_pos).trans (by cbv), ?_,
    unchanged (Nat.le_of_eq height_eq)⟩
  rw [reached [.anyIndex, .anyIndex] (by decide), List.take_succ_cons, List.take_zero, below,
    List.map_singleton]

end TaintTree

end AliasTaint
