import AliasTaint.Domain
import AliasTaint.Error

/-!
# Domains as interfaces

Some domains do not have all operations.  There are no greatest edge properties and no greatest
points-to tree, and neither is ever reset in place: such a request is refused with a fault.  Partitions
and trees are generic code, written for domains that have everything.  To see that this code never runs
into a refusal, it is given an interface in place of a domain: every operation is a request, and a
fault ends the whole operation.
-/

namespace AliasTaint

variable {V W α : Type}

/-! ## Interfaces -/

/-- The requests that a domain may refuse: for its greatest value, and for a reset in place. -/
structure Extremes (V : Type) where
  top : Except Fault V
  setToBottom : V → Except Fault V
  setToTop : V → Except Fault V

/-- The operations of a domain as requests, each of which may be refused. -/
@[ext]
structure Interface (V : Type) extends Extremes V where
  bottom : Except Fault V
  isBottom : V → Except Fault Bool
  isTop : V → Except Fault Bool
  leq : V → V → Except Fault Bool
  join : V → V → Except Fault V
  widen : V → V → Except Fault V
  meet : V → V → Except Fault V
  narrow : V → V → Except Fault V

/-- The extremes of a domain that has them. -/
def Extremes.ofDomain (V : Type) [Domain V] [HasTop V] : Extremes V where
  top := pure HasTop.top
  setToBottom _ := pure Domain.bottom
  setToTop _ := pure HasTop.top

namespace Interface

/-- The interface of a domain that answers everything, but perhaps refuses its extremes. -/
def answering [Domain V] (extremes : Extremes V) : Interface V where
  toExtremes := extremes
  bottom := pure Domain.bottom
  isBottom value := pure (Domain.isBottom value)
  isTop value := pure (Domain.isTop value)
  leq left right := pure (Domain.leq left right)
  join left right := pure (Domain.join left right)
  widen left right := pure (Domain.widen left right)
  meet left right := pure (Domain.meet left right)
  narrow left right := pure (Domain.narrow left right)

/-- The interface of a domain that has all operations. -/
def total (V : Type) [Domain V] [HasTop V] : Interface V :=
  answering (.ofDomain V)

/-- The interface of a domain whose values wrap those of another. -/
def wrap (close : W → V) (opened : V → W) (calls : Interface W) : Interface V where
  top := close <$> calls.top
  setToBottom value := close <$> calls.setToBottom (opened value)
  setToTop value := close <$> calls.setToTop (opened value)
  bottom := close <$> calls.bottom
  isBottom value := calls.isBottom (opened value)
  isTop value := calls.isTop (opened value)
  leq left right := calls.leq (opened left) (opened right)
  join left right := close <$> calls.join (opened left) (opened right)
  widen left right := close <$> calls.widen (opened left) (opened right)
  meet left right := close <$> calls.meet (opened left) (opened right)
  narrow left right := close <$> calls.narrow (opened left) (opened right)

/-- A choice between two answers is an answer. -/
theorem ite_pure (test : Prop) [Decidable test] (first second : α) :
    (if test then pure first else pure second : Except Fault α) =
      pure (if test then first else second) :=
  (apply_ite pure test first second).symm

section Answers

variable [Domain V] (extremes : Extremes V)

@[simp]
theorem answering_bottom : (answering extremes).bottom = pure Domain.bottom :=
  rfl

@[simp]
theorem answering_isBottom (value : V) :
    (answering extremes).isBottom value = pure (Domain.isBottom value) :=
  rfl

@[simp]
theorem answering_leq (left right : V) :
    (answering extremes).leq left right = pure (Domain.leq left right) :=
  rfl

@[simp]
theorem answering_join (left right : V) :
    (answering extremes).join left right = pure (Domain.join left right) :=
  rfl

end Answers

end Interface

/-! ## Requests -/

/-- A request to a domain, with the kind of answer it asks for. -/
inductive Request (V : Type) : Type → Type where
  | bottom : Request V V
  | top : Request V V
  | isBottom (value : V) : Request V Bool
  | isTop (value : V) : Request V Bool
  | leq (left right : V) : Request V Bool
  | equals (left right : V) : Request V Bool
  | join (left right : V) : Request V V
  | widen (left right : V) : Request V V
  | meet (left right : V) : Request V V
  | narrow (left right : V) : Request V V
  | setToBottom (value : V) : Request V V
  | setToTop (value : V) : Request V V

/-- Puts a request to an interface. Equality in the order is two comparisons. -/
def Interface.run (calls : Interface V) : Request V α → Except Fault α
  | .bottom => calls.bottom
  | .top => calls.top
  | .isBottom value => calls.isBottom value
  | .isTop value => calls.isTop value
  | .leq left right => calls.leq left right
  | .equals left right => do
      if ← calls.leq left right then calls.leq right left else pure false
  | .join left right => calls.join left right
  | .widen left right => calls.widen left right
  | .meet left right => calls.meet left right
  | .narrow left right => calls.narrow left right
  | .setToBottom value => calls.setToBottom value
  | .setToTop value => calls.setToTop value

/-- What a domain gives to a request, where its extremes may be refused. -/
def Request.answer [Domain V] (extremes : Extremes V) : Request V α → Except Fault α
  | .bottom => pure Domain.bottom
  | .top => extremes.top
  | .isBottom value => pure (Domain.isBottom value)
  | .isTop value => pure (Domain.isTop value)
  | .leq left right => pure (Domain.leq left right)
  | .equals left right => pure (Domain.equals left right)
  | .join left right => pure (Domain.join left right)
  | .widen left right => pure (Domain.widen left right)
  | .meet left right => pure (Domain.meet left right)
  | .narrow left right => pure (Domain.narrow left right)
  | .setToBottom value => extremes.setToBottom value
  | .setToTop value => extremes.setToTop value

theorem Interface.run_answering [Domain V] (extremes : Extremes V) (request : Request V α) :
    (answering extremes).run request = request.answer extremes := by
  cases request with
  | equals left right =>
      simp only [run, answering_leq, pure_bind, Request.answer, Domain.equals]
      cases Domain.leq left right <;> rfl
  | _ =>
      rfl

end AliasTaint
