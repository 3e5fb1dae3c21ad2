import AliasTaint.Proofs.Lattice

/-!
# Lattices of well-formed values

The values of a domain that are well-formed may form a lattice even if the domain as a whole does
not.  Pairs of such values form a lattice part by part.  A domain in which a value is bottom or has
parts that are all above bottom takes its order from the pairs, and its meet is bottom wherever some
part of the meet would be missing.
-/

namespace AliasTaint

open Domain

/-- The well-formed values of a domain are closed under its joins. -/
class JoinClosed {V : Type} [Domain V] (Good : V → Prop) : Prop where
  bottom : Good bottom
  join {left right : V} : Good left → Good right → Good (join left right)

/-- The well-formed values of a domain are ordered by its order, and have joins. -/
class SemilatticeOn {V : Type} [Domain V] (Good : V → Prop) : Prop extends JoinClosed Good where
  bottom_leq {value : V} : Good value → leq Domain.bottom value
  isBottom_iff {value : V} : Good value → (isBottom value ↔ value = Domain.bottom)
  leq_refl {value : V} : Good value → leq value value
  leq_trans {first second third : V} : Good first → Good second → Good third →
    leq first second → leq second third → leq first third
  leq_antisymm {left right : V} : Good left → Good right →
    leq left right → leq right left → left = right
  join_leq_iff {left right upper : V} : Good left → Good right → Good upper →
    (leq (Domain.join left right) upper ↔ leq left upper ∧ leq right upper)

/-- The well-formed values of a domain are a lattice, in which widening is the join and narrowing is
the meet. -/
class LatticeOn {V : Type} [Domain V] (Good : V → Prop) : Prop extends SemilatticeOn Good where
  meet {left right : V} : Good left → Good right → Good (meet left right)
  widen_eq (left right : V) : widen left right = Domain.join left right
  narrow_eq (left right : V) : narrow left right = Domain.meet left right
  leq_meet_iff {left right lower : V} : Good left → Good right → Good lower →
    (leq lower (Domain.meet left right) ↔ leq lower left ∧ leq lower right)

namespace SemilatticeOn

open JoinClosed

variable {V : Type} [Domain V] {Good : V → Prop} [SemilatticeOn Good]

theorem eq_bottom_of_leq {value : V} (good : Good value) (covered : leq value Domain.bottom) :
    value = Domain.bottom :=
  leq_antisymm good bottom covered (bottom_leq good)

theorem isBottom_of_leq {value upper : V}
    (good : Good value) (goodUpper : Good upper)
    (covered : leq value upper) (isNothing : isBottom upper) : isBottom value := by
  rw [(isBottom_iff goodUpper).mp isNothing] at covered
  exact (isBottom_iff good).mpr (eq_bottom_of_leq good covered)

theorem leq_joins {left right : V} (goodLeft : Good left) (goodRight : Good right) :
    leq left (Domain.join left right) ∧ leq right (Domain.join left right) :=
  have goodJoin := join goodLeft goodRight
  (join_leq_iff goodLeft goodRight goodJoin).mp (leq_refl goodJoin)

theorem join_eq_of_leq {value upper : V} (good : Good value) (goodUpper : Good upper)
    (covered : leq value upper) : Domain.join value upper = upper :=
  leq_antisymm (join good goodUpper) goodUpper
    ((join_leq_iff good goodUpper goodUpper).mpr ⟨covered, leq_refl goodUpper⟩)
    (leq_joins good goodUpper).2

theorem join_bottom {value : V} (good : Good value) :
    Domain.join value Domain.bottom = value :=
  leq_antisymm (join good bottom) good
    ((join_leq_iff good bottom good).mpr ⟨leq_refl good, bottom_leq good⟩)
    (leq_joins good bottom).1

theorem bottom_join {value : V} (good : Good value) :
    Domain.join Domain.bottom value = value :=
  join_eq_of_leq bottom good (bottom_leq good)

end SemilatticeOn

namespace LatticeOn

open JoinClosed SemilatticeOn

variable {V : Type} [Domain V] {Good : V → Prop} [LatticeOn Good]

/-! ## The domain of well-formed values -/

instance : ClosedDomain Good where
  bottom := bottom
  join := join
  widen {left right} goodLeft goodRight := by
    rw [widen_eq Good]
    exact join goodLeft goodRight
  meet := meet
  narrow {left right} goodLeft goodRight := by
    rw [narrow_eq Good]
    exact meet goodLeft goodRight

theorem meets_leq {left right : V} (goodLeft : Good left) (goodRight : Good right) :
    leq (Domain.meet left right) left ∧ leq (Domain.meet left right) right :=
  have goodMeet := meet goodLeft goodRight
  (leq_meet_iff goodLeft goodRight goodMeet).mp (leq_refl goodMeet)

theorem meet_bottom {value : V} (good : Good value) :
    Domain.meet value Domain.bottom = Domain.bottom :=
  eq_bottom_of_leq (meet good bottom) (meets_leq good bottom).2

theorem bottom_meet {value : V} (good : Good value) :
    Domain.meet Domain.bottom value = Domain.bottom :=
  eq_bottom_of_leq (meet bottom good) (meets_leq bottom good).1

instance : LawfulDomain (Subtype Good) where
  leq_refl value := (leq_refl value.2 : leq value.val value.val)
  leq_trans {first second third} firstCovered secondCovered :=
    (leq_trans first.2 second.2 third.2 firstCovered secondCovered : leq first.val third.val)
  bottom_leq value := (bottom_leq value.2 : leq Domain.bottom value.val)
  isBottom_iff {value} := by
    refine (isBottom_iff value.2).trans ⟨?_, eq_bottom_of_leq value.2⟩
    intro isNothing
    have least : leq value.val Domain.bottom := by
      rw [isNothing]
      exact leq_refl (bottom : Good Domain.bottom)
    exact least
  leq_join_left left right := (leq_joins left.2 right.2).1
  leq_join_right left right := (leq_joins left.2 right.2).2
  join_leq {left right upper} leftCovered rightCovered :=
    (join_leq_iff left.2 right.2 upper.2).mpr ⟨leftCovered, rightCovered⟩
  meet_leq_left left right := (meets_leq left.2 right.2).1
  meet_leq_right left right := (meets_leq left.2 right.2).2
  leq_meet {left right lower} leftCovers rightCovers :=
    (leq_meet_iff left.2 right.2 lower.2).mpr ⟨leftCovers, rightCovers⟩
  leq_widen_left left right := by
    have covered : leq left.val (widen left.val right.val) := by
      rw [widen_eq Good]
      exact (leq_joins left.2 right.2).1
    exact covered
  leq_widen_right left right := by
    have covered : leq right.val (widen left.val right.val) := by
      rw [widen_eq Good]
      exact (leq_joins left.2 right.2).2
    exact covered

instance : AntisymmetricDomain (Subtype Good) where
  antisymm {left right} leftCovered rightCovered :=
    Subtype.ext (leq_antisymm left.2 right.2 leftCovered rightCovered)

end LatticeOn

/-- The order and the joins of a domain that is lawful as a whole. -/
theorem semilatticeOn_true {V : Type} [Domain V] [LawfulDomain V] [AntisymmetricDomain V] :
    SemilatticeOn fun _ : V => True where
  bottom := trivial
  join _ _ := trivial
  bottom_leq _ := LawfulDomain.bottom_leq _
  isBottom_iff _ := by
    constructor
    · exact LawfulDomain.eq_bottom_of_isBottom
    · intro isNothing
      rw [isNothing]
      exact LawfulDomain.isBottom_bottom
  leq_refl _ := LawfulDomain.leq_refl _
  leq_trans _ _ _ := LawfulDomain.leq_trans
  leq_antisymm _ _ := AntisymmetricDomain.antisymm
  join_leq_iff _ _ _ := LawfulDomain.join_leq_iff

/-- A domain that is a lattice as a whole. -/
theorem latticeOn_true {V : Type} [Domain V] [LawfulDomain V] [AntisymmetricDomain V]
    (widen_eq : ∀ left right : V, widen left right = join left right)
    (narrow_eq : ∀ left right : V, narrow left right = meet left right) :
    LatticeOn fun _ : V => True where
  toSemilatticeOn := semilatticeOn_true
  meet _ _ := trivial
  widen_eq := widen_eq
  narrow_eq := narrow_eq
  leq_meet_iff {left right lower} _ _ _ := by
    constructor
    · intro covered
      exact ⟨LawfulDomain.leq_trans covered (LawfulDomain.meet_leq_left left right),
        LawfulDomain.leq_trans covered (LawfulDomain.meet_leq_right left right)⟩
    · rintro ⟨leftCovers, rightCovers⟩
      exact LawfulDomain.leq_meet leftCovers rightCovers

theorem Domain.Embedding.semilatticeOn {W V : Type} [Domain W] [Domain V] {embed : W → V}
    (embedding : Embedding embed)
    (injective : ∀ {left right : W}, embed left = embed right → left = right)
    (Good : V → Prop) [SemilatticeOn Good] :
    SemilatticeOn fun value => Good (embed value) where
  bottom := by
    rw [embedding.bottom]
    exact JoinClosed.bottom
  join goodLeft goodRight := by
    rw [embedding.join]
    exact JoinClosed.join goodLeft goodRight
  bottom_leq good := by
    rw [← embedding.leq, embedding.bottom]
    exact SemilatticeOn.bottom_leq good
  isBottom_iff good := by
    rw [← embedding.isBottom, SemilatticeOn.isBottom_iff good, ← embedding.bottom]
    exact ⟨injective, congrArg embed⟩
  leq_refl good := by
    rw [← embedding.leq]
    exact SemilatticeOn.leq_refl good
  leq_trans goodFirst goodSecond goodThird firstCovered secondCovered := by
    rw [← embedding.leq] at firstCovered secondCovered ⊢
    exact SemilatticeOn.leq_trans goodFirst goodSecond goodThird firstCovered secondCovered
  leq_antisymm goodLeft goodRight leftCovered rightCovered := by
    rw [← embedding.leq] at leftCovered rightCovered
    exact injective (SemilatticeOn.leq_antisymm goodLeft goodRight leftCovered rightCovered)
  join_leq_iff goodLeft goodRight goodUpper := by
    rw [← embedding.leq, ← embedding.leq, ← embedding.leq, embedding.join]
    exact SemilatticeOn.join_leq_iff goodLeft goodRight goodUpper

/-- What is a lattice after an embedding was one before it. -/
theorem Domain.Embedding.latticeOn {W V : Type} [Domain W] [Domain V] {embed : W → V}
    (embedding : Embedding embed)
    (injective : ∀ {left right : W}, embed left = embed right → left = right)
    (Good : V → Prop) [LatticeOn Good] :
    LatticeOn fun value => Good (embed value) where
  toSemilatticeOn := embedding.semilatticeOn injective Good
  meet goodLeft goodRight := by
    rw [embedding.meet]
    exact LatticeOn.meet goodLeft goodRight
  widen_eq left right := by
    apply injective
    rw [embedding.widen, embedding.join]
    exact LatticeOn.widen_eq Good _ _
  narrow_eq left right := by
    apply injective
    rw [embedding.narrow, embedding.meet]
    exact LatticeOn.narrow_eq Good _ _
  leq_meet_iff goodLeft goodRight goodLower := by
    rw [← embedding.leq, ← embedding.leq, ← embedding.leq, embedding.meet]
    exact LatticeOn.leq_meet_iff goodLeft goodRight goodLower

/-! ## Pairs -/

section Pairs

variable {A B : Type} [Domain A] [Domain B]

/-- Pairs are ordered part by part. -/
instance : Domain (A × B) where
  bottom := (bottom, bottom)
  isBottom pair := isBottom pair.1 && isBottom pair.2
  isTop pair := isTop pair.1 && isTop pair.2
  leq left right := leq left.1 right.1 && leq left.2 right.2
  join left right := (join left.1 right.1, join left.2 right.2)
  widen left right := (widen left.1 right.1, widen left.2 right.2)
  meet left right := (meet left.1 right.1, meet left.2 right.2)
  narrow left right := (narrow left.1 right.1, narrow left.2 right.2)

theorem pair_leq_iff {left right : A × B} :
    leq left right ↔ leq left.1 right.1 ∧ leq left.2 right.2 :=
  Bool.and_eq_true_iff

/-- Both parts of a pair are well-formed. -/
def GoodPair (GoodFirst : A → Prop) (GoodSecond : B → Prop) (pair : A × B) : Prop :=
  GoodFirst pair.1 ∧ GoodSecond pair.2

variable {GoodFirst : A → Prop} {GoodSecond : B → Prop}

instance [SemilatticeOn GoodFirst] [SemilatticeOn GoodSecond] :
    SemilatticeOn (GoodPair GoodFirst GoodSecond) where
  bottom := ⟨JoinClosed.bottom, JoinClosed.bottom⟩
  join goodLeft goodRight :=
    ⟨JoinClosed.join goodLeft.1 goodRight.1, JoinClosed.join goodLeft.2 goodRight.2⟩
  bottom_leq good :=
    pair_leq_iff.mpr ⟨SemilatticeOn.bottom_leq good.1, SemilatticeOn.bottom_leq good.2⟩
  isBottom_iff {value} good := by
    have parts :=
      and_congr (SemilatticeOn.isBottom_iff good.1) (SemilatticeOn.isBottom_iff good.2)
    rw [Prod.ext_iff]
    exact Bool.and_eq_true_iff.trans parts
  leq_refl good :=
    pair_leq_iff.mpr ⟨SemilatticeOn.leq_refl good.1, SemilatticeOn.leq_refl good.2⟩
  leq_trans goodFirst goodSecond goodThird firstCovered secondCovered := by
    rw [pair_leq_iff] at firstCovered secondCovered ⊢
    exact ⟨SemilatticeOn.leq_trans goodFirst.1 goodSecond.1 goodThird.1
        firstCovered.1 secondCovered.1,
      SemilatticeOn.leq_trans goodFirst.2 goodSecond.2 goodThird.2
        firstCovered.2 secondCovered.2⟩
  leq_antisymm goodLeft goodRight leftCovered rightCovered := by
    rw [pair_leq_iff] at leftCovered rightCovered
    exact Prod.ext
      (SemilatticeOn.leq_antisymm goodLeft.1 goodRight.1 leftCovered.1 rightCovered.1)
      (SemilatticeOn.leq_antisymm goodLeft.2 goodRight.2 leftCovered.2 rightCovered.2)
  join_leq_iff goodLeft goodRight goodUpper := by
    have parts := and_congr (SemilatticeOn.join_leq_iff goodLeft.1 goodRight.1 goodUpper.1)
      (SemilatticeOn.join_leq_iff goodLeft.2 goodRight.2 goodUpper.2)
    rw [pair_leq_iff, pair_leq_iff, pair_leq_iff]
    exact parts.trans and_and_and_comm

instance [LatticeOn GoodFirst] [LatticeOn GoodSecond] :
    LatticeOn (GoodPair GoodFirst GoodSecond) where
  meet goodLeft goodRight :=
    ⟨LatticeOn.meet goodLeft.1 goodRight.1, LatticeOn.meet goodLeft.2 goodRight.2⟩
  widen_eq left right :=
    Prod.ext (LatticeOn.widen_eq GoodFirst _ _) (LatticeOn.widen_eq GoodSecond _ _)
  narrow_eq left right :=
    Prod.ext (LatticeOn.narrow_eq GoodFirst _ _) (LatticeOn.narrow_eq GoodSecond _ _)
  leq_meet_iff goodLeft goodRight goodLower := by
    have parts := and_congr (LatticeOn.leq_meet_iff goodLeft.1 goodRight.1 goodLower.1)
      (LatticeOn.leq_meet_iff goodLeft.2 goodRight.2 goodLower.2)
    rw [pair_leq_iff, pair_leq_iff, pair_leq_iff]
    exact parts.trans and_and_and_comm

end Pairs

/-! ## Values with parts that are all above bottom -/

/-- The well-formed values of a domain are bottom, or put together from parts none of which lacks
anything. -/
structure Domain.Smash {W P : Type} [Domain W] [Domain P]
    (Good : W → Prop) (GoodParts : P → Prop)
    (parts : W → P) (whole : P → W) (lacks : P → Bool) : Prop where
  good_iff {value : W} :
    Good value ↔ value = bottom ∨ (GoodParts (parts value) ∧ lacks (parts value) = false)
  /-- Smaller parts lack something as well. -/
  lacks_of_leq {smaller greater : P} : GoodParts smaller → GoodParts greater →
    leq smaller greater → lacks greater → lacks smaller
  parts_whole (pair : P) : parts (whole pair) = pair
  whole_parts (value : W) : whole (parts value) = value
  isBottom_bottom : isBottom (bottom : W)
  lacks_of_isBottom {value : W} : isBottom value → lacks (parts value)
  leq_eq (left right : W) :
    leq left right =
      if isBottom left then true
      else if isBottom right then false
      else leq (parts left) (parts right)
  join_eq (left right : W) :
    join left right =
      if isBottom right then left
      else if isBottom left then right
      else whole (join (parts left) (parts right))
  meet_eq (left right : W) :
    meet left right =
      if isBottom left then left
      else if isBottom right then bottom
      else if lacks (meet (parts left) (parts right)) then bottom
      else whole (meet (parts left) (parts right))
  widen_eq (left right : W) : widen left right = join left right
  narrow_eq (left right : W) : narrow left right = meet left right

namespace Domain.Smash

variable {W P : Type} [Domain W] [Domain P]
  {Good : W → Prop} {GoodParts : P → Prop}
  {parts : W → P} {whole : P → W} {lacks : P → Bool}
  (smash : Smash Good GoodParts parts whole lacks)

include smash

theorem isBottom_of_full {value : W} (full : lacks (parts value) = false) :
    isBottom value = false := by
  cases isNothing : isBottom value with
  | false =>
      rfl
  | true =>
      rw [smash.lacks_of_isBottom isNothing] at full
      exact full

theorem bottom_leq (right : W) : leq bottom right := by
  rw [smash.leq_eq, smash.isBottom_bottom]
  rfl

theorem leq_bottom {left : W} (full : lacks (parts left) = false) : leq left bottom = false := by
  rw [smash.leq_eq, smash.isBottom_of_full full, smash.isBottom_bottom]
  rfl

theorem leq_parts {left right : W}
    (leftFull : lacks (parts left) = false) (rightFull : lacks (parts right) = false) :
    leq left right = leq (parts left) (parts right) := by
  rw [smash.leq_eq, smash.isBottom_of_full leftFull, smash.isBottom_of_full rightFull]
  rfl

theorem join_bottom (left : W) : join left bottom = left := by
  rw [smash.join_eq, smash.isBottom_bottom]
  rfl

theorem bottom_join {right : W} (full : lacks (parts right) = false) :
    join bottom right = right := by
  rw [smash.join_eq, smash.isBottom_of_full full, smash.isBottom_bottom]
  rfl

theorem parts_join {left right : W}
    (leftFull : lacks (parts left) = false) (rightFull : lacks (parts right) = false) :
    parts (join left right) = join (parts left) (parts right) := by
  rw [smash.join_eq, smash.isBottom_of_full leftFull, smash.isBottom_of_full rightFull]
  exact smash.parts_whole _

theorem bottom_meet (right : W) : meet bottom right = bottom := by
  rw [smash.meet_eq, smash.isBottom_bottom]
  rfl

theorem meet_bottom {left : W} (full : lacks (parts left) = false) :
    meet left bottom = bottom := by
  rw [smash.meet_eq, smash.isBottom_of_full full, smash.isBottom_bottom]
  rfl

theorem meet_of_lacks {left right : W}
    (leftFull : lacks (parts left) = false) (rightFull : lacks (parts right) = false)
    (lacking : lacks (meet (parts left) (parts right)) = true) :
    meet left right = bottom := by
  rw [smash.meet_eq, smash.isBottom_of_full leftFull, smash.isBottom_of_full rightFull, lacking]
  rfl

theorem parts_meet {left right : W}
    (leftFull : lacks (parts left) = false) (rightFull : lacks (parts right) = false)
    (full : lacks (meet (parts left) (parts right)) = false) :
    parts (meet left right) = meet (parts left) (parts right) := by
  rw [smash.meet_eq, smash.isBottom_of_full leftFull, smash.isBottom_of_full rightFull, full]
  exact smash.parts_whole _

theorem full_of_leq {smaller greater : P}
    (goodSmaller : GoodParts smaller) (goodGreater : GoodParts greater)
    (covered : leq smaller greater) (full : lacks smaller = false) :
    lacks greater = false := by
  cases lacking : lacks greater with
  | false =>
      rfl
  | true =>
      rw [smash.lacks_of_leq goodSmaller goodGreater covered lacking] at full
      exact full

theorem leq_trans_of_parts [SemilatticeOn GoodParts] {first second third : W}
    (goodFirst : Good first) (goodSecond : Good second) (goodThird : Good third)
    (firstCovered : leq first second) (secondCovered : leq second third) :
    leq first third := by
  rcases smash.good_iff.mp goodFirst with rfl | ⟨firstParts, firstFull⟩
  · exact smash.bottom_leq _
  rcases smash.good_iff.mp goodSecond with rfl | ⟨secondParts, secondFull⟩
  · rw [smash.leq_bottom firstFull] at firstCovered
    exact nomatch firstCovered
  rcases smash.good_iff.mp goodThird with rfl | ⟨thirdParts, thirdFull⟩
  · rw [smash.leq_bottom secondFull] at secondCovered
    exact nomatch secondCovered
  rw [smash.leq_parts firstFull secondFull] at firstCovered
  rw [smash.leq_parts secondFull thirdFull] at secondCovered
  rw [smash.leq_parts firstFull thirdFull]
  exact SemilatticeOn.leq_trans firstParts secondParts thirdParts firstCovered secondCovered

theorem leq_antisymm_of_parts [SemilatticeOn GoodParts] {left right : W}
    (goodLeft : Good left) (goodRight : Good right)
    (leftCovered : leq left right) (rightCovered : leq right left) :
    left = right := by
  rcases smash.good_iff.mp goodLeft with rfl | ⟨leftParts, leftFull⟩
  · rcases smash.good_iff.mp goodRight with rfl | ⟨_, rightFull⟩
    · rfl
    · rw [smash.leq_bottom rightFull] at rightCovered
      exact nomatch rightCovered
  rcases smash.good_iff.mp goodRight with rfl | ⟨rightParts, rightFull⟩
  · rw [smash.leq_bottom leftFull] at leftCovered
    exact nomatch leftCovered
  rw [smash.leq_parts leftFull rightFull] at leftCovered
  rw [smash.leq_parts rightFull leftFull] at rightCovered
  rw [← smash.whole_parts left, ← smash.whole_parts right,
    SemilatticeOn.leq_antisymm leftParts rightParts leftCovered rightCovered]

/-! ### Joins and meets -/

theorem full_join [SemilatticeOn GoodParts] {left right : W}
    (leftParts : GoodParts (parts left)) (leftFull : lacks (parts left) = false)
    (rightParts : GoodParts (parts right)) (rightFull : lacks (parts right) = false) :
    GoodParts (parts (join left right)) ∧ lacks (parts (join left right)) = false := by
  rw [smash.parts_join leftFull rightFull]
  have goodJoin := JoinClosed.join leftParts rightParts
  exact ⟨goodJoin, smash.full_of_leq leftParts goodJoin
    (SemilatticeOn.leq_joins leftParts rightParts).1 leftFull⟩

theorem good_join [SemilatticeOn GoodParts] {left right : W}
    (goodLeft : Good left) (goodRight : Good right) : Good (join left right) := by
  rcases smash.good_iff.mp goodRight with rfl | ⟨rightParts, rightFull⟩
  · rwa [smash.join_bottom]
  rcases smash.good_iff.mp goodLeft with rfl | ⟨leftParts, leftFull⟩
  · rwa [smash.bottom_join rightFull]
  exact smash.good_iff.mpr (Or.inr (smash.full_join leftParts leftFull rightParts rightFull))

theorem good_meet [LatticeOn GoodParts] {left right : W}
    (goodLeft : Good left) (goodRight : Good right) : Good (meet left right) := by
  rcases smash.good_iff.mp goodLeft with rfl | ⟨leftParts, leftFull⟩
  · rwa [smash.bottom_meet]
  rcases smash.good_iff.mp goodRight with rfl | ⟨rightParts, rightFull⟩
  · rwa [smash.meet_bottom leftFull]
  cases full : lacks (meet (parts left) (parts right)) with
  | true =>
      exact smash.good_iff.mpr (Or.inl (smash.meet_of_lacks leftFull rightFull full))
  | false =>
      refine smash.good_iff.mpr (Or.inr ?_)
      rw [smash.parts_meet leftFull rightFull full]
      exact ⟨LatticeOn.meet leftParts rightParts, full⟩

theorem join_leq_iff_of_parts [SemilatticeOn GoodParts] {left right upper : W}
    (goodLeft : Good left) (goodRight : Good right) (goodUpper : Good upper) :
    leq (join left right) upper ↔ leq left upper ∧ leq right upper := by
  rcases smash.good_iff.mp goodRight with rfl | ⟨rightParts, rightFull⟩
  · rw [smash.join_bottom]
    exact (and_iff_left (smash.bottom_leq upper)).symm
  rcases smash.good_iff.mp goodLeft with rfl | ⟨leftParts, leftFull⟩
  · rw [smash.bottom_join rightFull]
    exact (and_iff_right (smash.bottom_leq upper)).symm
  obtain ⟨_, joinFull⟩ := smash.full_join leftParts leftFull rightParts rightFull
  rcases smash.good_iff.mp goodUpper with rfl | ⟨upperParts, upperFull⟩
  · simp [smash.leq_bottom joinFull, smash.leq_bottom leftFull]
  rw [smash.leq_parts joinFull upperFull, smash.parts_join leftFull rightFull,
    smash.leq_parts leftFull upperFull, smash.leq_parts rightFull upperFull]
  exact SemilatticeOn.join_leq_iff leftParts rightParts upperParts

theorem leq_meet_iff_of_parts [LatticeOn GoodParts] {left right lower : W}
    (goodLeft : Good left) (goodRight : Good right) (goodLower : Good lower) :
    leq lower (meet left right) ↔ leq lower left ∧ leq lower right := by
  rcases smash.good_iff.mp goodLower with rfl | ⟨lowerParts, lowerFull⟩
  · simp [smash.bottom_leq]
  rcases smash.good_iff.mp goodLeft with rfl | ⟨leftParts, leftFull⟩
  · simp [smash.bottom_meet, smash.leq_bottom lowerFull]
  rcases smash.good_iff.mp goodRight with rfl | ⟨rightParts, rightFull⟩
  · simp [smash.meet_bottom leftFull, smash.leq_bottom lowerFull]
  rw [smash.leq_parts lowerFull leftFull, smash.leq_parts lowerFull rightFull,
    ← LatticeOn.leq_meet_iff leftParts rightParts lowerParts]
  cases full : lacks (meet (parts left) (parts right)) with
  | true =>
      -- Nothing with all its parts lies below parts of which one is lacking.
      rw [smash.meet_of_lacks leftFull rightFull full, smash.leq_bottom lowerFull]
      refine iff_of_false nofun ?_
      intro covered
      have meetFull :=
        smash.full_of_leq lowerParts (LatticeOn.meet leftParts rightParts) covered lowerFull
      rw [full] at meetFull
      exact nomatch meetFull
  | false =>
      have meetParts := smash.parts_meet leftFull rightFull full
      rw [← meetParts] at full ⊢
      rw [smash.leq_parts lowerFull full]

theorem isBottom_iff_eq {value : W} (good : Good value) : isBottom value ↔ value = bottom := by
  rcases smash.good_iff.mp good with rfl | ⟨_, full⟩
  · exact iff_of_true smash.isBottom_bottom rfl
  · have filled := smash.isBottom_of_full full
    refine iff_of_false (by simp [filled]) ?_
    intro isNothing
    rw [isNothing, smash.isBottom_bottom] at filled
    exact nomatch filled

theorem semilatticeOn [SemilatticeOn GoodParts] : SemilatticeOn Good where
  bottom := smash.good_iff.mpr (Or.inl rfl)
  join := smash.good_join
  bottom_leq _ := smash.bottom_leq _
  isBottom_iff := smash.isBottom_iff_eq
  leq_refl {value} good := by
    rcases smash.good_iff.mp good with rfl | ⟨goodParts, full⟩
    · exact smash.bottom_leq _
    · rw [smash.leq_parts full full]
      exact SemilatticeOn.leq_refl goodParts
  leq_trans := smash.leq_trans_of_parts
  leq_antisymm := smash.leq_antisymm_of_parts
  join_leq_iff := smash.join_leq_iff_of_parts

/-- If the parts are a lattice, then so are the values made of them. -/
theorem latticeOn [LatticeOn GoodParts] : LatticeOn Good where
  toSemilatticeOn := smash.semilatticeOn
  meet := smash.good_meet
  widen_eq := smash.widen_eq
  narrow_eq := smash.narrow_eq
  leq_meet_iff := smash.leq_meet_iff_of_parts

end Domain.Smash

end AliasTaint
