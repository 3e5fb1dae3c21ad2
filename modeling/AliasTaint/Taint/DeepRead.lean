import AliasTaint.PointsTo.AliasMap
import AliasTaint.Taint.Environment

/-!
# Deep reads

A deep read gives the taint that a location has through its aliases. Each alias edge of the root of
the location is followed to its target; the taint found there crosses the edge, and is written at
the path that the edge starts from. With more than one hop, the aliases of the targets are followed
as well. A root without aliases has no taint of this kind.
-/

namespace AliasTaint.Environment

variable {heuristics : Heuristics}

/-- Joins the taint that reaches a tree through its alias edges, given the taint of each target. -/
def throughEdges (aliases : PointsToTree heuristics) (taintOf : Location → TaintTree heuristics) :
    TaintTree heuristics :=
  aliases.visit.foldl
    (fun result stored =>
      stored.2.edges.foldl
        (fun current edge =>
          current.writeTree stored.1 ((taintOf edge.1).cross edge.2) .weak)
        result)
    .bottom

/-- The taint of a location through up to `hops` alias edges. With no hop it is the plain read. -/
def deepReadHops (environment : Environment heuristics) (aliases : AliasMap heuristics) :
    Nat → Location → TaintTree heuristics
  | 0, location => environment.read location
  | hops + 1, location =>
      match aliases.get? location.root with
      | none => .bottom
      | some tree =>
          (throughEdges tree fun target =>
            match hops with
            | 0 => environment.read target
            | further + 1 =>
                (environment.read target).join
                  (deepReadHops environment aliases (further + 1) target)).read location.path

/-- The taint of a location through as many alias edges as the heuristics say. -/
def deepRead (environment : Environment heuristics) (aliases : AliasMap heuristics)
    (location : Location) : TaintTree heuristics :=
  environment.deepReadHops aliases heuristics.aliasHops.toNat location

def deepReadLocations (environment : Environment heuristics) (aliases : AliasMap heuristics)
    (locations : LocationSet) : TaintTree heuristics :=
  joinOver locations fun location => environment.deepRead aliases location

def deepReadLocationsPath (environment : Environment heuristics) (aliases : AliasMap heuristics)
    (locations : LocationSet) (path : Path) : TaintTree heuristics :=
  joinOver locations fun location => (environment.deepRead aliases location).read path

end AliasTaint.Environment
