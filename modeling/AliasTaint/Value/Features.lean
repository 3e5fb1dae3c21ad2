import AliasTaint.Domain
import AliasTaint.Sorted.Set
import AliasTaint.Text

/-!
# Feature sets

Features are labels on taint and on alias edges. A feature set says which features *may* hold, on
some flow, and which *always* hold, on every flow. In a sound set every feature that always holds
also may hold.
-/

namespace AliasTaint

/-- A label on taint or on an alias edge. -/
structure Feature where
  name : String
  deriving DecidableEq

namespace Feature

instance : Ord Feature :=
  ⟨compareOn name⟩

instance : Std.TransOrd Feature :=
  inferInstanceAs (Std.TransCmp (compareOn name))

instance : Std.LawfulEqOrd Feature where
  eq_of_compare {left right} same := by
    have nameEq : left.name = right.name := Std.LawfulEqOrd.eq_of_compare same
    cases left
    cases right
    simp_all

/-- Marks taint that was moved upwards when a tree was collapsed. -/
def viaCollapse : Feature := ⟨"via-collapse"⟩

instance : Inspect Feature where
  inspect feature := Text.application "Feature" (inspect feature.name)

end Feature

/-- The features that may hold and those that always hold. -/
inductive FeatureSet where
  | bottom
  | value (may always : SortedSet Feature)
  | top
  deriving DecidableEq

namespace FeatureSet

/-- No feature holds on any flow. -/
def empty : FeatureSet := .value ∅ ∅

/-- Given the two sets; a feature that always holds also may hold. -/
def ofSets (may always : SortedSet Feature) : FeatureSet :=
  .value (may.union always) always

def ofMay (features : List Feature) : FeatureSet :=
  ofSets (.ofList features) ∅

def ofAlways (features : List Feature) : FeatureSet :=
  ofSets (.ofList features) (.ofList features)

def isEmpty : FeatureSet → Bool
  | .value may _ => may.isEmpty
  | _ => false

def may? : FeatureSet → Option (SortedSet Feature)
  | .value may _ => some may
  | _ => none

def always? : FeatureSet → Option (SortedSet Feature)
  | .value _ always => some always
  | _ => none

def isBottom (features : FeatureSet) : Bool :=
  features = .bottom

/-! ## Adding features -/

/-- From now on the feature may hold. -/
def addMay (feature : Feature) : FeatureSet → FeatureSet
  | .value may always => .value (may.insert feature) always
  | other => other

/-- From now on the feature always holds. -/
def addAlways (feature : Feature) : FeatureSet → FeatureSet
  | .value may always => .value (may.insert feature) (always.insert feature)
  | other => other

/-- Stamps further features on every flow: what always holds in `right` always holds in the sum. -/
def add : FeatureSet → FeatureSet → FeatureSet
  | left, .bottom => left
  | _, .top => .top
  | .bottom, right => right
  | .top, _ => .top
  | .value may always, .value otherMay otherAlways =>
      .value (may.union otherMay) (always.union otherAlways)

/-! ## The order -/

def leq : FeatureSet → FeatureSet → Bool
  | .bottom, _ => true
  | _, .top => true
  | _, .bottom => false
  | .top, _ => false
  | .value may always, .value otherMay otherAlways =>
      may.subset otherMay && otherAlways.subset always

/-- What may hold on either side may hold; what always holds on both sides always holds. -/
def join : FeatureSet → FeatureSet → FeatureSet
  | left, .bottom => left
  | _, .top => .top
  | .bottom, right => right
  | .top, _ => .top
  | .value may always, .value otherMay otherAlways =>
      .value (may.union otherMay) (always.inter otherAlways)

/-- What may hold on both sides may hold; what always holds on either side always holds. If some
feature would always hold that may not, no flow is left. -/
def meet : FeatureSet → FeatureSet → FeatureSet
  | left, .top => left
  | _, .bottom => .bottom
  | .bottom, _ => .bottom
  | .top, right => right
  | .value may always, .value otherMay otherAlways =>
      let commonMay := may.inter otherMay
      let anyAlways := always.union otherAlways
      if anyAlways.subset commonMay then .value commonMay anyAlways else .bottom

instance : Domain FeatureSet where
  bottom := .bottom
  isBottom := isBottom
  isTop features := features = .top
  leq := leq
  join := join
  widen := join
  meet := meet
  narrow := meet

instance : HasTop FeatureSet :=
  ⟨.top⟩

/-! ## Text -/

/-- Features that may hold are listed without those that always hold. -/
instance : Render FeatureSet where
  render
    | .bottom => Text.bottomSymbol
    | .top => Text.topSymbol
    | .value may always =>
        Text.mapping
          [("always", Text.bracketed (always.toList.map Feature.name)),
           ("may", Text.bracketed ((may.diff always).toList.map Feature.name))]

instance : Inspect FeatureSet where
  inspect
    | .bottom => "Bottom"
    | .top => "Top"
    | .value may always =>
        Text.record "Value"
          [("may", Text.braced (may.toList.map inspect)),
           ("always", Text.braced (always.toList.map inspect))]

end FeatureSet

end AliasTaint
