import AliasTaint.Heuristics.Basic

/-!
# Heuristics of a session

A session has one choice of heuristics. It can be installed once, before it is first observed;
observing it when nothing is installed fixes the standard choice.
-/

namespace AliasTaint

/-- The heuristics that a session has settled on, if it has. -/
structure Session where
  settled : Option Heuristics
  deriving DecidableEq

namespace Session

/-- Nothing is installed or observed yet. -/
def fresh : Session := ⟨none⟩

/-- The heuristics of a session are what was installed, or the standard choice. -/
def observe (session : Session) : Heuristics × Session :=
  let heuristics := session.settled.getD .standard
  (heuristics, ⟨some heuristics⟩)

/-- Installs heuristics. Invalid ones are refused first, and then any second choice. -/
def install (session : Session) (heuristics : Heuristics) : Except ConfigError Session :=
  match heuristics.validate with
  | .error cause => .error cause
  | .ok () =>
      match session.settled with
      | some _ => .error .alreadyInstalled
      | none => .ok ⟨some heuristics⟩

end Session

end AliasTaint
