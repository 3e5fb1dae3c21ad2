/-!
# Abstract domains

The operations that every domain of the analysis has. They are plain functions and tests on data;
which laws they satisfy, and on which values, is a matter of theorems.
-/

namespace AliasTaint

/-- The operations of an abstract domain. -/
class Domain (V : Type) where
  /-- The value that stands for nothing. -/
  bottom : V
  isBottom : V → Bool
  isTop : V → Bool
  /-- The order: the left value is covered by the right one. -/
  leq : V → V → Bool
  join : V → V → V
  widen : V → V → V
  meet : V → V → V
  narrow : V → V → V

/-- Domains with a greatest value. -/
class HasTop (V : Type) where
  top : V

namespace Domain

/-- Equality in the order: each value covers the other. -/
def equals {V : Type} [Domain V] (left right : V) : Bool :=
  leq left right && leq right left

/-- The value, unless it is bottom. -/
def nonBottom? {V : Type} [Domain V] (value : V) : Option V :=
  if isBottom value then none else some value

end Domain

/-- How a write treats what was there before. -/
inductive UpdateKind where
  /-- The written value takes the place of the old one. -/
  | strong
  /-- The written value is joined to the old one. -/
  | weak
  deriving DecidableEq

end AliasTaint
