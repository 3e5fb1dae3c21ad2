import AliasTaint.Domain
import AliasTaint.Text

/-!
# Collapse depths

The depth from which taint that crosses an alias edge is collapsed into one node. Collapsing earlier
loses more, so a smaller depth is a greater value; the greatest depth stands for no collapse at all.
-/

namespace AliasTaint

/-- The depth at which an alias edge collapses taint. -/
inductive CollapseDepth where
  | bottom
  | level (number : UInt32)
  deriving DecidableEq

namespace CollapseDepth

/-- The depth that stands for no collapse. -/
def unlimited : UInt32 := 4294967295

/-- An edge that keeps everything apart. -/
def noCollapse : CollapseDepth := .level unlimited

/-- An edge that collapses everything into one node. -/
def collapse : CollapseDepth := .level 0

def value? : CollapseDepth → Option UInt32
  | .bottom => none
  | .level number => some number

/-- The depth to collapse at, if the edge collapses. -/
def collapseAt? : CollapseDepth → Option UInt32
  | .bottom => none
  | .level number => if number = unlimited then none else some number

def shouldCollapse (depth : CollapseDepth) : Bool :=
  depth.collapseAt?.isSome

/-! ## The order -/

def leq : CollapseDepth → CollapseDepth → Bool
  | .bottom, _ => true
  | .level _, .bottom => false
  | .level left, .level right => right ≤ left

def join : CollapseDepth → CollapseDepth → CollapseDepth
  | .bottom, right => right
  | left, .bottom => left
  | .level left, .level right => .level (if left ≤ right then left else right)

def meet : CollapseDepth → CollapseDepth → CollapseDepth
  | .level left, .level right => .level (if left ≤ right then right else left)
  | _, _ => .bottom

instance : Domain CollapseDepth where
  bottom := .bottom
  isBottom depth := depth = .bottom
  isTop depth := depth = .collapse
  leq := leq
  join := join
  widen := join
  meet := meet
  narrow := meet

instance : HasTop CollapseDepth :=
  ⟨collapse⟩

/-! ## Text -/

instance : Render CollapseDepth where
  render
    | .bottom => Text.bottomSymbol
    | .level number =>
        if number = unlimited then "no-collapse" else Text.application "collapse" (render number)

instance : Inspect CollapseDepth where
  inspect
    | .bottom => Text.application "CollapseDepth" "None"
    | .level number => Text.application "CollapseDepth" (Text.application "Some" (inspect number))

end CollapseDepth

end AliasTaint
