import AliasTaint.PointsTo.Tree

/-!
# Alias maps

The aliases that were resolved for the roots of a procedure: a points-to tree for each root that has
one. Recording aliases of the same root again joins them to those known before.
-/

namespace AliasTaint

/-- The points-to trees of roots. -/
structure AliasMap (heuristics : Heuristics) where
  trees : SortedMap RootId (PointsToTree heuristics)
  deriving DecidableEq

namespace AliasMap

variable {heuristics : Heuristics}

def empty : AliasMap heuristics := ⟨∅⟩

/-- The points-to tree of a root. -/
def get? (aliases : AliasMap heuristics) (root : RootId) : Option (PointsToTree heuristics) :=
  aliases.trees.get? root

/-- Records aliases of a root. A root without aliases has no tree. -/
def insert (aliases : AliasMap heuristics) (root : RootId) (tree : PointsToTree heuristics) :
    AliasMap heuristics :=
  let joined := ((aliases.get? root).getD .bottom).join tree
  if joined.isBottom then
    ⟨aliases.trees.erase root⟩
  else
    ⟨aliases.trees.insert root joined⟩

/-- Records aliases of roots one after the other. -/
def ofList (trees : List (RootId × PointsToTree heuristics)) : AliasMap heuristics :=
  trees.foldl (fun aliases entry => aliases.insert entry.1 entry.2) empty

def size (aliases : AliasMap heuristics) : Nat :=
  aliases.trees.size

def isEmpty (aliases : AliasMap heuristics) : Bool :=
  aliases.trees.isEmpty

/-- One line for each root. -/
instance : Render (AliasMap heuristics) where
  render aliases :=
    let line (entry : RootId × PointsToTree heuristics) : String :=
      "\n  " ++ render entry.1 ++ " -> " ++ render entry.2
    Text.application "ResolvedAliasesMap" (String.join (aliases.trees.entries.map line) ++ "\n")

instance : Inspect (AliasMap heuristics) where
  inspect aliases :=
    Text.record "ResolvedAliasesMap"
      [("aliases", Text.mapping
        (aliases.trees.entries.map fun entry => (inspect entry.1, inspect entry.2)))]

end AliasMap

end AliasTaint
