import AliasTaint.Proofs.Taint.Widen
import AliasTaint.Proofs.Value.Rank
import Mathlib.Data.Set.Card

/-!
# Chains of widenings

A taint tree that is widened again and again, by trees over fixed labels, kinds and features, changes
only a bounded number of times.  After the first widening the tree is no higher than the heuristics
allow.  A widening that shows something new then shows something new, over the alphabets, at a path
over the labels that is no longer than this height: what the other tree stores deeper is moved up to
such a path.  There are finitely many of these paths, and at each of them the rank of the taint is
bounded.
-/

namespace AliasTaint

open Domain

/-! ## Paths over an alphabet -/

namespace Path

/-- The paths over given labels up to a length. -/
def upTo (labels : Finset PathElement) : Nat → Finset Path
  | 0 => {[]}
  | length + 1 => insert [] ((labels ×ˢ upTo labels length).image fun step => step.1 :: step.2)

/-- The number of paths up to a length over that many labels. -/
def countUpTo (labelCount : Nat) : Nat → Nat
  | 0 => 1
  | length + 1 => labelCount * countUpTo labelCount length + 1

theorem mem_upTo {labels : Finset PathElement} {length : Nat} {path : Path}
    (short : path.length ≤ length) (isOver : ∀ label ∈ path, label ∈ labels) :
    path ∈ upTo labels length := by
  induction length generalizing path with
  | zero =>
      rw [List.eq_nil_of_length_eq_zero (Nat.le_zero.mp short)]
      exact Finset.mem_singleton_self _
  | succ length inductionHypothesis =>
      cases path with
      | nil =>
          exact Finset.mem_insert_self _ _
      | cons label path =>
          have labelOver := isOver label List.mem_cons_self
          have restListed := inductionHypothesis (Nat.le_of_succ_le_succ short)
            fun other member => isOver other (List.mem_cons_of_mem _ member)
          refine Finset.mem_insert_of_mem (Finset.mem_image.mpr ⟨(label, path), ?_, rfl⟩)
          exact Finset.mem_product.mpr ⟨labelOver, restListed⟩

theorem card_upTo_le (labels : Finset PathElement) (length : Nat) :
    (upTo labels length).card ≤ countUpTo labels.card length := by
  induction length with
  | zero =>
      exact Nat.le_refl 1
  | succ length inductionHypothesis =>
      calc (upTo labels (length + 1)).card
          ≤ ((labels ×ˢ upTo labels length).image fun step => step.1 :: step.2).card + 1 :=
            Finset.card_insert_le _ _
        _ ≤ (labels ×ˢ upTo labels length).card + 1 :=
            Nat.add_le_add_right Finset.card_image_le 1
        _ = labels.card * (upTo labels length).card + 1 := by
            rw [Finset.card_product]
        _ ≤ labels.card * countUpTo labels.card length + 1 :=
            Nat.add_le_add_right (Nat.mul_le_mul_left _ inductionHypothesis) 1

end Path

/-! ## Trees over alphabets -/

variable {heuristics : Heuristics} {labels : Finset PathElement} {kinds : Finset Kind}
  {features : Finset Feature}

theorem FeatureSet.Over.addMark (marked : Feature.viaCollapse ∈ features) {set : FeatureSet}
    (isOver : set.Over features) : (set.add (.ofMay [.viaCollapse])).Over features := by
  have markOver : ∀ feature ∈ (SortedSet.ofList [Feature.viaCollapse]).union ∅,
      feature ∈ features := by
    intro feature member
    rcases List.mem_singleton.mp member with rfl
    exact marked
  cases set with
  | bottom =>
      exact ⟨markOver, nofun⟩
  | top =>
      exact trivial
  | value may always =>
      refine ⟨?_, ?_⟩
      · intro feature member
        exact (SortedSet.mem_union.mp member).elim (isOver.1 feature) (markOver feature)
      · intro feature member
        exact (SortedSet.mem_union.mp member).elim (isOver.2 feature) nofun

theorem Taint.Over.markCollapsed (marked : Feature.viaCollapse ∈ features)
    {taint : Taint heuristics} (isOver : taint.Over kinds features) :
    (TaintTree.markCollapsed taint).Over kinds features := by
  refine Partition.Over.transform isOver ?_
  intro frame frameOver
  unfold TaintFrame.addFeatures
  split
  · exact frameOver
  · exact FeatureSet.Over.addMark marked frameOver

namespace TaintTree

/-- All labels, kinds and features come from the alphabets; heights and positions may be any. -/
def Over (labels : Finset PathElement) (kinds : Finset Kind) (features : Finset Feature)
    (tree : TaintTree heuristics) : Prop :=
  ∀ stored ∈ tree.tree.nodes,
    (∀ label ∈ stored.1, label ∈ labels) ∧ stored.2.Over kinds features

instance : DecidablePred (@Over heuristics labels kinds features) := fun tree =>
  inferInstanceAs (Decidable (∀ stored ∈ tree.tree.nodes,
    (∀ label ∈ stored.1, label ∈ labels) ∧ stored.2.Over kinds features))

theorem Over.stored {tree : TaintTree heuristics} (isOver : tree.Over labels kinds features)
    {path : Path} (filled : Domain.isBottom (tree.stored path) = false) :
    (∀ label ∈ path, label ∈ labels) ∧ (tree.stored path).Over kinds features :=
  isOver (path, tree.stored path) (Node.mem_nodes_of_stored rfl filled)

/-! ## What a widening adds -/

/-- The taint over the alphabets that a widened tree shows was shown before, at the paths over the
labels that are short enough for it. -/
def ShowsNothingNew (labels : Finset PathElement) (kinds : Finset Kind) (features : Finset Feature)
    (tree widened : TaintTree heuristics) : Prop :=
  ∀ path ∈ Path.upTo labels heuristics.maxTreeHeight.toNat,
    ∀ addition : Taint heuristics, addition.WellFormed → addition.Over kinds features →
      Domain.leq addition (widened.view path) → Domain.leq addition (tree.view path)

section Additions

variable {tree input : TaintTree heuristics}
  (formed : tree.WellFormed) (inputFormed : input.WellFormed)

include formed inputFormed

/-- What a join stores deeper than the height is moved up, marked, to where the height ends. -/
theorem marked_leq_view_widen {cut below : Path}
    (cutLength : cut.length = heuristics.maxTreeHeight.toNat) (nonempty : below ≠ []) :
    Domain.leq (markCollapsed ((tree.join input).stored (cut ++ below)))
      ((tree.widen input).view cut) := by
  have goodView := good_view (wellFormed_widen formed inputFormed) cut
  have ideal := ideal_leq goodView
  have hoisted := (inside_view_widen_iff admits_mark formed inputFormed ideal cut).mp
    (SemilatticeOn.leq_refl goodView)
  have movedUp := ((Node.allHoisted_iff_stored (ideal.comap joinMapOn_mark).bottom
    (tree.join input).tree.ordered _ cut).mp hoisted).2 (Nat.le_of_eq cutLength.symm) below nonempty
  rwa [List.take_of_length_le (Nat.le_of_eq cutLength)] at movedUp

/-- Deeper than a tree is high, a join with it stores what the other tree stores or nothing. -/
theorem stored_join_of_height_lt {path : Path} (beyond : tree.height < path.length) :
    (tree.join input).stored path = Domain.bottom ∨
      (tree.join input).stored path = input.stored path := by
  have treeEnds : tree.stored path = Domain.bottom :=
    Node.stored_of_height_lt tree.tree.ordered beyond
  have joined := stored_join_eq formed inputFormed path
  rwa [treeEnds, SemilatticeOn.bottom_join (inputFormed.stored path)] at joined

variable (inputOver : input.Over labels kinds features)
  (known : ShowsNothingNew labels kinds features tree (tree.widen input))

include inputOver known

/-- What the input stores within the height was shown before. -/
theorem stored_leq_view_of_known {above path : Path} (isBeginning : above <+: path)
    (short : above.length ≤ heuristics.maxTreeHeight.toNat) :
    Domain.leq (input.stored above) (tree.view path) := by
  have goodView : (tree.view path).WellFormed := good_view formed path
  have storedFormed := inputFormed.stored above
  cases filled : Domain.isBottom (input.stored above) with
  | true =>
      exact (ideal_leq goodView).of_isBottom storedFormed filled
  | false =>
      obtain ⟨labelsOver, taintOver⟩ := inputOver.stored filled
      have widenedShows : Domain.leq (input.stored above) ((tree.widen input).view above) :=
        SemilatticeOn.leq_trans storedFormed (good_view inputFormed above)
          (good_view (wellFormed_widen formed inputFormed) above)
          (stored_leq_view input (List.prefix_refl above))
          (views_leq_widen admits_mark formed inputFormed above).2
      have shown := known above (Path.mem_upTo short labelsOver) _ storedFormed taintOver
        widenedShows
      exact SemilatticeOn.leq_trans storedFormed (good_view formed above) goodView shown
        (view_leq_view tree isBeginning)

variable (marked : Feature.viaCollapse ∈ features)
  (low : tree.height ≤ heuristics.maxTreeHeight.toNat)

include marked low

/-- What the input stores deeper was shown before, with its mark, where the height ends. -/
theorem marked_leq_view_of_known {cut path below : Path}
    (cutLength : cut.length = heuristics.maxTreeHeight.toNat) (isBeginning : cut <+: path)
    (nonempty : below ≠ []) :
    Domain.leq (markCollapsed ((tree.join input).stored (cut ++ below))) (tree.view path) := by
  have goodView : (tree.view path).WellFormed := good_view formed path
  have storedFormed := inputFormed.stored (cut ++ below)
  have markedIdeal := (ideal_leq goodView).comap joinMapOn_mark
  have moved := marked_leq_view_widen formed inputFormed cutLength nonempty
  have beyond : tree.height < (cut ++ below).length := by
    have longer : 0 < below.length := List.length_pos_iff.mpr nonempty
    rw [List.length_append]
    omega
  rcases stored_join_of_height_lt formed inputFormed beyond with isNothing | isInput
  · rw [isNothing]
    exact markedIdeal.bottom
  · rw [isInput] at moved ⊢
    cases filled : Domain.isBottom (input.stored (cut ++ below)) with
    | true =>
        exact markedIdeal.of_isBottom storedFormed filled
    | false =>
        obtain ⟨labelsOver, taintOver⟩ := inputOver.stored filled
        have cutListed := Path.mem_upTo (Nat.le_of_eq cutLength) fun label member =>
          labelsOver label (List.mem_append_left below member)
        have markedFormed := joinMapOn_mark.good storedFormed
        have shown := known cut cutListed _ markedFormed (taintOver.markCollapsed marked) moved
        exact SemilatticeOn.leq_trans markedFormed (good_view formed cut) goodView shown
          (view_leq_view tree isBeginning)

/-- A widening that shows nothing new changes nothing. -/
theorem widen_leq_of_known : (tree.widen input).leq tree := by
  rw [leq_iff_view_leq (wellFormed_widen formed inputFormed) formed]
  intro path
  have ideal := ideal_leq (good_view formed path)
  refine (inside_view_widen_iff admits_mark formed inputFormed ideal path).mpr ?_
  refine (Node.allHoisted_iff_stored (ideal.comap joinMapOn_mark).bottom
    (tree.join input).tree.ordered _ path).mpr ⟨?_, ?_⟩
  · intro above isBeginning short
    change Domain.leq ((tree.join input).stored above) (tree.view path)
    rcases stored_join_eq formed inputFormed above with isNothing | isJoin
    · rw [isNothing]
      exact ideal.bottom
    · rw [isJoin]
      refine (ideal.join_iff (formed.stored above) (inputFormed.stored above)).mpr ⟨?_, ?_⟩
      · exact stored_leq_view tree isBeginning
      · exact stored_leq_view_of_known formed inputFormed inputOver known isBeginning short
  · intro long below nonempty
    exact marked_leq_view_of_known formed inputFormed inputOver known marked low
      (List.length_take_of_le long) (List.take_prefix _ _) nonempty

end Additions

/-! ## Ranks of trees -/

/-- The ranks of what a tree shows at the short paths over the labels. -/
def rank (labels : Finset PathElement) (kinds : Finset Kind) (features : Finset Feature)
    (tree : TaintTree heuristics) : Nat :=
  ∑ path ∈ Path.upTo labels heuristics.maxTreeHeight.toNat, (tree.view path).rank kinds features

/-- The greatest rank of a tree over alphabets of given sizes. -/
def greatestRank (heuristics : Heuristics) (labelCount kindCount featureCount : Nat) : Nat :=
  Path.countUpTo labelCount heuristics.maxTreeHeight.toNat *
    Taint.greatestRank heuristics kindCount featureCount

theorem rank_le_greatestRank {tree : TaintTree heuristics} (formed : tree.WellFormed) :
    tree.rank labels kinds features ≤
      greatestRank heuristics labels.card kinds.card features.card := by
  refine Nat.le_trans (Finset.sum_le_card_nsmul _ _ _ fun path _ =>
    (Taint.ranking kinds features).rank_le (good_view formed path)) ?_
  exact Nat.mul_le_mul_right _ (Path.card_upTo_le labels _)

theorem rank_le_rank_widen {tree input : TaintTree heuristics} (formed : tree.WellFormed)
    (inputFormed : input.WellFormed) :
    tree.rank labels kinds features ≤ (tree.widen input).rank labels kinds features :=
  Finset.sum_le_sum fun path _ => (Taint.ranking kinds features).monotone (good_view formed path)
    (good_view (wellFormed_widen formed inputFormed) path)
    (views_leq_widen admits_mark formed inputFormed path).1

theorem rank_lt_rank_widen (marked : Feature.viaCollapse ∈ features)
    {tree input : TaintTree heuristics} (formed : tree.WellFormed)
    (low : tree.height ≤ heuristics.maxTreeHeight.toNat)
    (inputFormed : input.WellFormed) (inputOver : input.Over labels kinds features)
    (changed : (tree.widen input).leq tree = false) :
    tree.rank labels kinds features < (tree.widen input).rank labels kinds features := by
  have showsNew : ¬ ShowsNothingNew labels kinds features tree (tree.widen input) := fun known =>
    Bool.eq_false_iff.mp changed
      (widen_leq_of_known formed inputFormed inputOver known marked low)
  unfold ShowsNothingNew at showsNew
  push Not at showsNew
  obtain ⟨path, pathListed, addition, additionFormed, additionOver, isShown, isNew⟩ := showsNew
  have goodViews := good_view (wellFormed_widen formed inputFormed)
  have covered (path : Path) := (views_leq_widen admits_mark formed inputFormed path).1
  exact Finset.sum_lt_sum
    (fun path _ => (Taint.ranking kinds features).monotone (good_view formed path) (goodViews path)
      (covered path))
    ⟨path, pathListed, (Taint.ranking kinds features).rises additionFormed (good_view formed path)
      (goodViews path) additionOver (covered path) isShown isNew⟩

end TaintTree

/-! ## Chains -/

/-- A bounded sequence that never falls rises at no more places than its bound. -/
theorem encard_rises_le {rank : Nat → Nat} {bound : Nat}
    (keeps : ∀ step, rank step ≤ rank (step + 1)) (bounded : ∀ step, rank step ≤ bound) :
    {step | rank step < rank (step + 1)}.encard ≤ bound := by
  have monotone : Monotone rank := monotone_nat_of_le_succ keeps
  have lands : Set.MapsTo rank {step | rank step < rank (step + 1)} (Finset.range bound) := by
    intro step rises
    exact Finset.mem_coe.mpr (Finset.mem_range.mpr (Nat.lt_of_lt_of_le rises (bounded _)))
  have separates : Set.InjOn rank {step | rank step < rank (step + 1)} := by
    intro first firstRises second secondRises same
    rcases Nat.lt_trichotomy first second with before | rfl | after
    · have below : rank (first + 1) ≤ rank second := monotone before
      have rises : rank first < rank (first + 1) := firstRises
      omega
    · rfl
    · have below : rank (second + 1) ≤ rank first := monotone after
      have rises : rank second < rank (second + 1) := secondRises
      omega
  calc {step | rank step < rank (step + 1)}.encard
      ≤ (Finset.range bound : Set Nat).encard := Set.encard_le_encard_of_injOn lands separates
    _ = bound := by
        rw [Set.encard_coe_eq_coe_finsetCard, Finset.card_range]

namespace TaintTree

/-- How often a chain of widenings can change, over alphabets of given sizes: once to become low
enough, and then until its rank is the greatest. -/
def widenLimit (heuristics : Heuristics) (labelCount kindCount featureCount : Nat) : Nat :=
  greatestRank heuristics labelCount kindCount featureCount + 1

/-- The rank along a chain of widenings, which starts to count after the first. -/
def chainRank (labels : Finset PathElement) (kinds : Finset Kind) (features : Finset Feature)
    (chain : Nat → TaintTree heuristics) : Nat → Nat
  | 0 => 0
  | step + 1 => (chain (step + 1)).rank labels kinds features

section Chains

variable {chain inputs : Nat → TaintTree heuristics}
  (startFormed : (chain 0).WellFormed) (inputsFormed : ∀ step, (inputs step).WellFormed)
  (widens : ∀ step, chain (step + 1) = (chain step).widen (inputs step))

include startFormed inputsFormed widens

theorem wellFormed_chain (step : Nat) : (chain step).WellFormed := by
  induction step with
  | zero =>
      exact startFormed
  | succ step inductionHypothesis =>
      rw [widens]
      exact wellFormed_widen inductionHypothesis (inputsFormed step)

theorem chainRank_le_greatestRank (step : Nat) :
    chainRank labels kinds features chain step ≤
      greatestRank heuristics labels.card kinds.card features.card := by
  cases step with
  | zero =>
      exact Nat.zero_le _
  | succ step =>
      exact rank_le_greatestRank (wellFormed_chain startFormed inputsFormed widens _)

theorem chainRank_le_succ (step : Nat) :
    chainRank labels kinds features chain step ≤
      chainRank labels kinds features chain (step + 1) := by
  cases step with
  | zero =>
      exact Nat.zero_le _
  | succ step =>
      rw [chainRank, chainRank, widens (step + 1)]
      exact rank_le_rank_widen (wellFormed_chain startFormed inputsFormed widens _) (inputsFormed _)

theorem chainRank_lt_succ (marked : Feature.viaCollapse ∈ features)
    (inputsOver : ∀ step, (inputs step).Over labels kinds features) {step : Nat}
    (changed : (chain (step + 2)).leq (chain (step + 1)) = false) :
    chainRank labels kinds features chain (step + 1) <
      chainRank labels kinds features chain (step + 2) := by
  have low : (chain (step + 1)).height ≤ heuristics.maxTreeHeight.toNat := by
    rw [widens]
    exact height_widen_le _ _
  rw [widens (step + 1)] at changed
  rw [chainRank, chainRank, widens (step + 1)]
  exact rank_lt_rank_widen marked (wellFormed_chain startFormed inputsFormed widens _) low
    (inputsFormed _) (inputsOver _) changed

end Chains

/-- Widening a tree again and again, by trees over given labels, kinds and features, gives a greater
tree only so many times. -/
theorem widen_chain_stabilizes (heuristics : Heuristics)
    (labels : Finset PathElement) (kinds : Finset Kind) (features : Finset Feature)
    (marked : Feature.viaCollapse ∈ features)
    (chain inputs : Nat → TaintTree heuristics)
    (startFormed : (chain 0).WellFormed)
    (inputsFormed : ∀ step, (inputs step).WellFormed)
    (inputsOver : ∀ step, (inputs step).Over labels kinds features)
    (widens : ∀ step, chain (step + 1) = (chain step).widen (inputs step)) :
    {step | (chain (step + 1)).leq (chain step) = false}.encard ≤
      widenLimit heuristics labels.card kinds.card features.card := by
  have changesRise : {step | (chain (step + 1)).leq (chain step) = false} ⊆
      insert 0 {step | chainRank labels kinds features chain step <
        chainRank labels kinds features chain (step + 1)} := by
    intro step changed
    cases step with
    | zero =>
        exact Set.mem_insert _ _
    | succ step =>
        exact Set.mem_insert_of_mem _
          (chainRank_lt_succ startFormed inputsFormed widens marked inputsOver changed)
  calc {step | (chain (step + 1)).leq (chain step) = false}.encard
      ≤ (insert 0 {step | chainRank labels kinds features chain step <
          chainRank labels kinds features chain (step + 1)}).encard :=
        Set.encard_le_encard changesRise
    _ ≤ {step | chainRank labels kinds features chain step <
          chainRank labels kinds features chain (step + 1)}.encard + 1 :=
        Set.encard_insert_le _ _
    _ ≤ (greatestRank heuristics labels.card kinds.card features.card : ℕ∞) + 1 :=
        add_le_add_left (encard_rises_le (chainRank_le_succ startFormed inputsFormed widens)
          (chainRank_le_greatestRank startFormed inputsFormed widens)) 1
    _ = widenLimit heuristics labels.card kinds.card features.card :=
        (Nat.cast_succ _).symm

/-- A flat tree, of a kind outside the alphabet, that is widened by a deep one. -/
def deepChain : Nat → TaintTree (.ofPreset .fast)
  | 0 => flatTaint
  | step + 1 => (deepChain step).widen deepTaint

/-- The first step gives a greater tree. -/
theorem widen_chain_stabilizes_deep :
    (deepChain 0).WellFormed ∧ deepTaint.WellFormed ∧
    deepTaint.Over {.anyIndex} {⟨"source"⟩} {.viaCollapse} ∧
    (deepChain 1).leq (deepChain 0) = false ∧
    {step | (deepChain (step + 1)).leq (deepChain step) = false}.encard ≤
      widenLimit (.ofPreset .fast) 1 1 1 := by
  have startFormed : (deepChain 0).WellFormed := of_decide_eq_true (by cbv)
  have deepFormed : deepTaint.WellFormed := of_decide_eq_true (by cbv)
  have storedNodes : deepTaint.tree.nodes =
      [([], Domain.bottom), ([.anyIndex], Domain.bottom), ([.anyIndex, .anyIndex], Domain.bottom),
        ([.anyIndex, .anyIndex, .anyIndex], .ofKind ⟨"source"⟩)] :=
    of_decide_eq_true (by cbv)
  have deepOver : deepTaint.Over {.anyIndex} {⟨"source"⟩} {.viaCollapse} := by
    rw [Over, storedNodes]
    decide
  exact ⟨startFormed, deepFormed, deepOver, by cbv,
    widen_chain_stabilizes _ {.anyIndex} {⟨"source"⟩} {.viaCollapse} (by decide) deepChain
      (fun _ => deepTaint) startFormed (fun _ => deepFormed) (fun _ => deepOver) fun _ => rfl⟩

end TaintTree

end AliasTaint
