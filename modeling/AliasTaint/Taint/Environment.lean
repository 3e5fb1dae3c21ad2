import AliasTaint.Access.Location
import AliasTaint.Taint.Tree

/-!
# Taint environments

The taint of all memory: a taint tree for each root that has taint. Locations of one root share its
tree. The top environment has every taint everywhere.
-/

namespace AliasTaint

/-- The taint trees of the roots. -/
structure Environment (heuristics : Heuristics) where
  trees : Partition RootId (TaintTree heuristics)
  deriving DecidableEq

namespace Environment

variable {heuristics : Heuristics}

def bottom : Environment heuristics := ⟨.empty⟩

def top : Environment heuristics := ⟨.top⟩

/-- The taint tree that a root is bound to. -/
def tree? (environment : Environment heuristics) (root : RootId) :
    Option (TaintTree heuristics) :=
  environment.trees.binding? root

/-! ## Reads -/

/-- The taint of a location. -/
def read (environment : Environment heuristics) (location : Location) : TaintTree heuristics :=
  match environment.trees with
  | .top => .top
  | .sparse trees =>
      match trees.get? location.root with
      | some tree => tree.read location.path
      | none => .bottom

/-- The taint of a part of a location. -/
def readPath (environment : Environment heuristics) (location : Location) (path : Path) :
    TaintTree heuristics :=
  environment.read (location.extend path)

/-- The taint of any of some locations. -/
def joinOver (locations : LocationSet) (taintOf : Location → TaintTree heuristics) :
    TaintTree heuristics :=
  locations.toList.foldl (fun taint location => taint.join (taintOf location)) .bottom

def readLocations (environment : Environment heuristics) (locations : LocationSet) :
    TaintTree heuristics :=
  joinOver locations environment.read

def readLocationsPath (environment : Environment heuristics) (locations : LocationSet)
    (path : Path) : TaintTree heuristics :=
  joinOver locations fun location => environment.readPath location path

/-! ## Writes -/

/-- Writes taint to a part of a location. -/
def write (environment : Environment heuristics) (location : Location) (path : Path)
    (taint : TaintTree heuristics) (kind : UpdateKind) : Environment heuristics :=
  ⟨environment.trees.update location.root fun tree =>
    tree.writeTree (location.path ++ path) taint kind⟩

/-- How a write to some locations is carried out: only a write to a single location may replace
what was there. -/
def appliedKind (locations : LocationSet) (kind : UpdateKind) : UpdateKind :=
  if locations.isEmpty then kind
  else if locations.single?.isSome then kind
  else .weak

/-- Writes taint to a part of each of some locations, and says how. -/
def writeLocations (environment : Environment heuristics) (locations : LocationSet) (path : Path)
    (taint : TaintTree heuristics) (kind : UpdateKind) :
    UpdateKind × Environment heuristics :=
  let applied := appliedKind locations kind
  (applied,
    locations.toList.foldl
      (fun current location => current.write location path taint applied) environment)

/-- Writes trees to locations one after the other, each joined to what was there. -/
def ofList (trees : List (Location × TaintTree heuristics)) : Environment heuristics :=
  trees.foldl (fun environment entry => environment.write entry.1 [] entry.2 .weak) bottom

/-! ## The order -/

instance : Domain (Environment heuristics) where
  bottom := bottom
  isBottom environment := Domain.isBottom environment.trees
  isTop environment := Domain.isTop environment.trees
  leq left right := Domain.leq left.trees right.trees
  join left right := ⟨Domain.join left.trees right.trees⟩
  widen left right := ⟨Domain.widen left.trees right.trees⟩
  meet left right := ⟨Domain.meet left.trees right.trees⟩
  narrow left right := ⟨Domain.narrow left.trees right.trees⟩

instance : HasTop (Environment heuristics) :=
  ⟨top⟩

/-! ## Text -/

/-- One line for each root, shown by its name if the table has one. -/
def renderWith (environment : Environment heuristics) (table : RootTable) : String :=
  if Domain.isBottom environment then
    Text.bottomSymbol
  else if Domain.isTop environment then
    Text.topSymbol
  else
    let line (entry : RootId × TaintTree heuristics) : String :=
      "\n  " ++ table.renderRoot entry.1 ++ " -> " ++ render entry.2
    Text.application "TaintEnvironment"
      (String.join (environment.trees.bindings.map line) ++ "\n")

instance : Render (Environment heuristics) where
  render environment := environment.renderWith .empty

instance : Inspect (Environment heuristics) where
  inspect environment :=
    Text.record "TaintEnvironment" [("environment", inspect environment.trees)]

end Environment

end AliasTaint
