import AliasTaint.Proofs.Cumulative
import AliasTaint.Proofs.Refusal.Interface

/-!
# Partitions over an interface

A partition works through its bindings one by one and asks the domain of its values at every step.
Whatever that domain refuses as its extremes, all these loops come to an end with the partition that
the operations on a domain give.  Only one request needs a greatest value: to read a key of the top
partition.
-/

namespace AliasTaint

variable {K V : Type} [Ord K] [DecidableEq K] [Std.TransOrd K] [Std.LawfulEqOrd K]

/-! ## Loops over the bindings of a map -/

namespace SortedMap

/-- Takes an entry into a map. It may bind its key anew, given the value that the key has so far. -/
def takeOne (binds : K → V → Option V → Option V) (map : SortedMap K V) (entry : K × V) :
    SortedMap K V :=
  match binds entry.1 entry.2 (map.get? entry.1) with
  | none => map
  | some value => map.insert entry.1 value

/-- Takes entries into a map one after the other. -/
def takeIn (binds : K → V → Option V → Option V) (map : SortedMap K V) (entries : List (K × V)) :
    SortedMap K V :=
  entries.foldl (takeOne binds) map

theorem get?_takeOne (binds : K → V → Option V → Option V) (map : SortedMap K V) (entry : K × V)
    (key : K) :
    (map.takeOne binds entry).get? key =
      if key = entry.1 then (binds key entry.2 (map.get? key)).or (map.get? key)
      else map.get? key := by
  unfold takeOne
  split
  · rename_i unbound
    split
    · rename_i same
      rw [same, unbound, Option.none_or]
    · rfl
  · rename_i value bound
    refine (Entries.lookup_insert entry.1 key value map.entries).trans ?_
    split
    · rename_i same
      rw [same, bound, Option.some_or]
    · rfl

theorem get?_takeIn (binds : K → V → Option V → Option V) {entries : List (K × V)}
    (increasing : Entries.Increasing entries) (map : SortedMap K V) (key : K) :
    (map.takeIn binds entries).get? key =
      ((entries.lookup key).bind fun value => binds key value (map.get? key)).or (map.get? key) := by
  induction entries generalizing map with
  | nil =>
      rfl
  | cons entry rest inductionHypothesis =>
      obtain ⟨entryKey, value⟩ := entry
      obtain ⟨smaller, restIncreasing⟩ := List.pairwise_cons.mp increasing
      refine (inductionHypothesis restIncreasing _).trans ?_
      rw [get?_takeOne]
      by_cases same : key = entryKey
      · subst same
        -- No later entry has the key again.
        have unboundLater : rest.lookup key = none := by
          rw [List.lookup_eq_none_iff]
          intro later member
          simpa using Entries.ne_of_smaller (smaller later member)
        rw [unboundLater, List.lookup_cons_self, if_pos rfl]
        rfl
      · rw [Entries.lookup_cons_of_ne same, if_neg same]

/-- Taken into an empty map, the entries of a map are changed one by one. -/
theorem takeIn_empty (change : K → V → Option V) (map : SortedMap K V) :
    takeIn (fun key value _ => change key value) ∅ map.entries = map.filterMapValues change := by
  apply ext_get?
  intro key
  rw [get?_takeIn _ map.increasing]
  have changed := map.increasing.lookup_filterMapValues change key
  exact Option.or_none.trans changed.symm

/-- Taken into another map, the entries of a map are combined with what it has. -/
theorem takeIn_combine (both : V → V → V) (left right : SortedMap K V) :
    left.takeIn (fun _ value current => some (current.elim value fun known => both known value))
        right.entries =
      left.combine both right := by
  apply ext_get?
  intro key
  rw [get?_takeIn _ right.increasing, get?_combine]
  have lookup_eq : right.entries.lookup key = right.get? key := rfl
  rw [lookup_eq]
  cases left.get? key <;> cases right.get? key <;> rfl

/-! ## Loops over an interface -/

variable (calls : Interface V)

/-- The value of a key, where an absent key counts as bottom. -/
def valueVia (map : SortedMap K V) (key : K) : Except Fault V :=
  match map.get? key with
  | some value => pure value
  | none => calls.bottom

/-- Binds a key to a changed value. -/
def updateVia (map : SortedMap K V) (key : K) (change : V → Except Fault V) :
    Except Fault (SortedMap K V) := do
  let updated ← change (← map.valueVia calls key)
  if ← calls.isBottom updated then pure (map.erase key) else pure (map.insert key updated)

/-- Keeps a value under its key, unless it is bottom. -/
def keepVia (kept : SortedMap K V) (key : K) (value : V) : Except Fault (SortedMap K V) := do
  if ← calls.isBottom value then pure kept else pure (kept.insert key value)

/-- Changes every value. -/
def transformVia (map : SortedMap K V) (change : V → Except Fault V) :
    Except Fault (SortedMap K V) :=
  map.entries.foldlM
    (fun kept entry => do keepVia calls kept entry.1 (← change entry.2)) ∅

/-- Combines the values of the keys that both maps bind. -/
def lowerVia (both : V → V → Except Fault V) (left right : SortedMap K V) :
    Except Fault (SortedMap K V) :=
  left.entries.foldlM
    (fun kept entry =>
      match right.get? entry.1 with
      | none => pure kept
      | some other => do keepVia calls kept entry.1 (← both entry.2 other)) ∅

/-- Takes over the bindings of another map; a key that both bind gets the combination. -/
def upperVia (both : V → V → Except Fault V) (left right : SortedMap K V) :
    Except Fault (SortedMap K V) :=
  right.entries.foldlM
    (fun current entry =>
      match current.get? entry.1 with
      | none => pure (current.insert entry.1 entry.2)
      | some value => do pure (current.insert entry.1 (← both value entry.2))) left

/-- Compares the values key by key, up to the first that is not covered. -/
def leqVia (left right : SortedMap K V) : Except Fault Bool :=
  left.entries.allM fun entry =>
    match right.get? entry.1 with
    | some other => calls.leq entry.2 other
    | none => calls.isBottom entry.2

/-! ## The loops answer -/

variable [Domain V] (extremes : Extremes V) (map left right : SortedMap K V)

omit calls

omit [Std.TransOrd K] [Std.LawfulEqOrd K] in
theorem valueVia_answering (key : K) :
    map.valueVia (.answering extremes) key = pure ((map.get? key).getD Domain.bottom) := by
  unfold valueVia
  cases map.get? key <;> rfl

theorem updateVia_answering (key : K) (change : V → V) :
    map.updateVia (.answering extremes) key (fun value => pure (change value)) =
      pure (if Domain.isBottom (change ((map.get? key).getD Domain.bottom)) then map.erase key
        else map.insert key (change ((map.get? key).getD Domain.bottom))) := by
  simp only [updateVia, valueVia_answering, pure_bind, Interface.answering_isBottom,
    Interface.ite_pure]

omit [DecidableEq K] in
theorem keepVia_answering (key : K) (value : V) :
    map.keepVia (.answering extremes) key value =
      pure (match Domain.nonBottom? value with
        | none => map
        | some kept => map.insert key kept) := by
  simp only [keepVia, Interface.answering_isBottom, pure_bind, Domain.nonBottom?]
  split <;> rfl

theorem transformVia_answering (change : V → V) :
    map.transformVia (.answering extremes) (fun value => pure (change value)) =
      pure (map.filterMapValues fun _ value => Domain.nonBottom? (change value)) := by
  simp only [transformVia, pure_bind, keepVia_answering, List.foldlM_pure]
  exact congrArg pure (takeIn_empty (fun _ value => Domain.nonBottom? (change value)) map)

theorem lowerVia_answering (both : V → V → V) :
    lowerVia (.answering extremes) (fun value other => pure (both value other)) left right =
      pure (left.filterMapValues fun key value =>
        (right.get? key).bind fun other => Domain.nonBottom? (both value other)) := by
  have step (kept : SortedMap K V) (entry : K × V) :
      (match right.get? entry.1 with
        | none => pure kept
        | some other => do
            keepVia (.answering extremes) kept entry.1 (← pure (both entry.2 other))) =
        (pure (kept.takeOne
          (fun key value _ => (right.get? key).bind fun other =>
            Domain.nonBottom? (both value other)) entry) : Except Fault _) := by
    cases found : right.get? entry.1 with
    | none =>
        simp [takeOne, found]
    | some other =>
        simp [takeOne, found, keepVia_answering]
  simp only [lowerVia, step, List.foldlM_pure]
  exact congrArg pure (takeIn_empty _ left)

omit [Domain V] in
theorem upperVia_pure (both : V → V → V) :
    upperVia (fun value other => pure (both value other)) left right =
      pure (left.combine both right) := by
  have step (current : SortedMap K V) (entry : K × V) :
      (match current.get? entry.1 with
        | none => pure (current.insert entry.1 entry.2)
        | some value => do pure (current.insert entry.1 (← pure (both value entry.2)))) =
        (pure (current.takeOne
          (fun _ value known => some (known.elim value fun before => both before value)) entry) :
          Except Fault _) := by
    cases found : current.get? entry.1 <;> simp [takeOne, found]
  simp only [upperVia, step, List.foldlM_pure]
  exact congrArg pure (takeIn_combine both left right)

omit [Std.TransOrd K] [Std.LawfulEqOrd K] in
theorem leqVia_answering :
    leqVia (.answering extremes) left right =
      pure (Partition.leq (.sparse left) (.sparse right)) := by
  rw [Partition.leq, ← List.allM_pure]
  refine congrArg (fun test => left.entries.allM test) (funext fun entry => ?_)
  cases right.get? entry.1 <;> rfl

end SortedMap

/-! ## Partitions -/

namespace Partition

variable (calls : Interface V)

/-- Reads a key. The top partition asks for the greatest value. -/
def getVia : Partition K V → K → Except Fault V
  | .top, _ => calls.top
  | .sparse map, key => map.valueVia calls key

def updateVia (partition : Partition K V) (key : K) (change : V → Except Fault V) :
    Except Fault (Partition K V) :=
  match partition with
  | .top => pure .top
  | .sparse map => sparse <$> map.updateVia calls key change

def transformVia (partition : Partition K V) (change : V → Except Fault V) :
    Except Fault (Partition K V) :=
  match partition with
  | .top => pure .top
  | .sparse map => sparse <$> map.transformVia calls change

def upperVia (both : V → V → Except Fault V) :
    Partition K V → Partition K V → Except Fault (Partition K V)
  | .top, _ => pure .top
  | .sparse _, .top => pure .top
  | .sparse left, .sparse right => sparse <$> SortedMap.upperVia both left right

def lowerVia (both : V → V → Except Fault V) :
    Partition K V → Partition K V → Except Fault (Partition K V)
  | left, .top => pure left
  | .top, right => pure right
  | .sparse left, .sparse right => sparse <$> SortedMap.lowerVia calls both left right

def leqVia : Partition K V → Partition K V → Except Fault Bool
  | _, .top => pure true
  | .top, .sparse _ => pure false
  | .sparse left, .sparse right => SortedMap.leqVia calls left right

/-- A partition has all operations itself; it asks its values for what it needs of them. -/
def interface : Interface (Partition K V) where
  top := pure .top
  setToBottom _ := pure .empty
  setToTop _ := pure .top
  bottom := pure .empty
  isBottom partition := pure partition.isEmpty
  isTop partition := pure partition.isTop
  leq := leqVia calls
  join := upperVia calls.join
  widen := upperVia calls.widen
  meet := lowerVia calls calls.meet
  narrow := lowerVia calls calls.narrow

variable [Domain V] (extremes : Extremes V)

omit calls

theorem updateVia_answering (partition : Partition K V) (key : K) (change : V → V) :
    partition.updateVia (.answering extremes) key (fun value => pure (change value)) =
      pure (partition.update key change) := by
  cases partition with
  | top =>
      rfl
  | sparse map =>
      rw [updateVia, SortedMap.updateVia_answering, map_pure, update, set, binding?,
        Domain.nonBottom?]
      split <;> rfl

theorem transformVia_answering (partition : Partition K V) (change : V → V) :
    partition.transformVia (.answering extremes) (fun value => pure (change value)) =
      pure (partition.transform change) := by
  cases partition with
  | top =>
      rfl
  | sparse map =>
      rw [transformVia, SortedMap.transformVia_answering, map_pure, transform]

omit [Domain V] in
theorem upperVia_pure (both : V → V → V) (left right : Partition K V) :
    upperVia (fun value other => pure (both value other)) left right =
      pure (upper both left right) := by
  cases left <;> cases right <;> simp [upperVia, upper, SortedMap.upperVia_pure]

theorem lowerVia_answering (both : V → V → V) (left right : Partition K V) :
    lowerVia (.answering extremes) (fun value other => pure (both value other)) left right =
      pure (lower both left right) := by
  cases left <;> cases right <;> simp [lowerVia, lower, SortedMap.lowerVia_answering]

omit [Std.TransOrd K] [Std.LawfulEqOrd K] in
theorem leqVia_answering (left right : Partition K V) :
    leqVia (.answering extremes) left right = pure (leq left right) := by
  cases right with
  | top =>
      cases left <;> rfl
  | sparse right =>
      cases left with
      | top =>
          rfl
      | sparse left =>
          exact SortedMap.leqVia_answering extremes left right

/-- A partition answers everything, whatever the extremes of its values are. -/
theorem interface_answering :
    interface (.answering extremes) = .answering (.ofDomain (Partition K V)) := by
  have meets (both : V → V → V) := funext₂ (lowerVia_answering (K := K) extremes both)
  have joins (both : V → V → V) := funext₂ (upperVia_pure (K := K) both)
  exact Interface.ext rfl rfl rfl rfl rfl rfl (funext₂ (leqVia_answering extremes))
    (joins Domain.join) (joins Domain.widen) (meets Domain.meet) (meets Domain.narrow)

end Partition

end AliasTaint
