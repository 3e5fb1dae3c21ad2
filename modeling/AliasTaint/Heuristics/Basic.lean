import AliasTaint.Error
import AliasTaint.Text

/-!
# Heuristics

Three bounds keep an iterative analysis finite: the height that widening leaves to a taint tree, the
number of positions a set lists before it gives up, and the number of alias edges a deep read
follows. Valid bounds lie in fixed ranges; presets name three common choices.
-/

namespace AliasTaint

/-- The bounds of an analysis. -/
structure Heuristics where
  /-- The greatest height of a taint tree after widening. -/
  maxTreeHeight : UInt64
  /-- The greatest number of positions that a set lists. -/
  maxPositions : UInt64
  /-- The number of alias edges that a deep read follows. -/
  aliasHops : UInt64
  deriving DecidableEq

/-! ## Presets -/

/-- Named choices of the bounds. -/
inductive Preset where
  | fast
  | balanced
  | thorough
  deriving DecidableEq

namespace Preset

/-- The choice when none is made. -/
def standard : Preset := .balanced

/-- Reads the name of a preset. Case does not matter: every letter of the three names is ASCII, and
no other character becomes one of these letters in lower case. -/
def ofName (name : String) : Except ConfigError Preset :=
  match String.ofList (name.toList.map Char.toLower) with
  | "fast" => .ok .fast
  | "balanced" => .ok .balanced
  | "thorough" => .ok .thorough
  | _ => .error (.unknownPreset name)

instance : Inspect Preset where
  inspect
    | .fast => "Fast"
    | .balanced => "Balanced"
    | .thorough => "Thorough"

end Preset

namespace Heuristics

def ofPreset : Preset → Heuristics
  | .fast => { maxTreeHeight := 2, maxPositions := 8, aliasHops := 1 }
  | .balanced => { maxTreeHeight := 4, maxPositions := 20, aliasHops := 1 }
  | .thorough => { maxTreeHeight := 8, maxPositions := 100, aliasHops := 2 }

/-- The bounds in force when none are chosen. -/
def standard : Heuristics :=
  ofPreset .standard

/-! ## Ranges -/

/-- A bound of the analysis: its name, its value and the range it must lie in. -/
structure Bound where
  field : String
  value : UInt64
  greatest : Nat
  hint : String

/-- The bounds in the order in which they are checked. Every bound is at least one. -/
def bounds (heuristics : Heuristics) : List Bound :=
  [{ field := "max_taint_tree_height_after_widening"
     value := heuristics.maxTreeHeight
     greatest := 64
     hint := "Widening must keep at least the root level" },
   { field := "max_local_positions"
     value := heuristics.maxPositions
     greatest := 10000
     hint := "Position sets need room for at least one position" },
   { field := "alias_resolution_hops"
     value := heuristics.aliasHops
     greatest := 16
     hint := "Deep reads follow at least one alias edge" }]

def Bound.holds (bound : Bound) : Bool :=
  1 ≤ bound.value.toNat && bound.value.toNat ≤ bound.greatest

def Bound.error (bound : Bound) : ConfigError :=
  .range bound.field (Nat.repr bound.value.toNat) "1" (Nat.repr bound.greatest) bound.hint

/-- Checks the ranges; the first bound outside its range is reported. -/
def validate (heuristics : Heuristics) : Except ConfigError Unit :=
  match heuristics.bounds.find? fun bound => !bound.holds with
  | some bound => .error bound.error
  | none => .ok ()

/-! ## Text -/

instance : Inspect Heuristics where
  inspect heuristics :=
    Text.record "TaintHeuristics"
      (heuristics.bounds.map fun bound => (bound.field, inspect bound.value))

end Heuristics

end AliasTaint
