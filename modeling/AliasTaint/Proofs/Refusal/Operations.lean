import AliasTaint.Proofs.Refusal.Taint

/-!
# Which operations are refused

All operations of the points-to domains, of alias maps and of environments, taken together.  Each is
carried out request by request, down to the properties of single edges.  The main statement says that an
operation gives what the library gives, and that it comes to a fault only if it asks for one outright:
for an extreme of edge properties or of a points-to tree, for an edge of the top set, or for a hook of
the points-to policy.  Writes of many values and reads at many locations are loops over these operations.
-/

namespace AliasTaint

/-- An operation, with the kind of its result. -/
inductive Operation (heuristics : Heuristics) : Type → Type 1 where
  /-- A request to edge properties. -/
  | askEdge {α : Type} (request : Request (EdgeProperties heuristics) α) : Operation heuristics α
  | addFeatures (edge : EdgeProperties heuristics) (features : FeatureSet) :
      Operation heuristics (EdgeProperties heuristics)
  | setAlwaysCollapse (edge : EdgeProperties heuristics) :
      Operation heuristics (EdgeProperties heuristics)
  | stampEdge (edge further : EdgeProperties heuristics) :
      Operation heuristics (EdgeProperties heuristics)
  /-- A request to points-to sets. -/
  | askSet {α : Type} (request : Request (PointsToSet heuristics) α) : Operation heuristics α
  | getEdge (set : PointsToSet heuristics) (target : Location) :
      Operation heuristics (EdgeProperties heuristics)
  | insertEdge (set : PointsToSet heuristics) (target : Location) (edge : EdgeProperties heuristics) :
      Operation heuristics (PointsToSet heuristics)
  | stampSet (set : PointsToSet heuristics) (edge : EdgeProperties heuristics) :
      Operation heuristics (PointsToSet heuristics)
  /-- A request to points-to trees. -/
  | askTree {α : Type} (request : Request (PointsToTree heuristics) α) : Operation heuristics α
  | rawRead (tree : PointsToTree heuristics) (path : Path) :
      Operation heuristics (PointsToTree heuristics)
  | rawReadLongest (tree : PointsToTree heuristics) (path : Path) :
      Operation heuristics (Path × PointsToTree heuristics)
  | visit (tree : PointsToTree heuristics) : Operation heuristics (List (Path × PointsToSet heuristics))
  | visitUp (tree : PointsToTree heuristics) :
      Operation heuristics (List (Path × PointsToSet heuristics))
  | write (tree : PointsToTree heuristics) (path : Path) (set : PointsToSet heuristics)
      (kind : UpdateKind) : Operation heuristics (PointsToTree heuristics)
  | writeTree (tree : PointsToTree heuristics) (path : Path) (grafted : PointsToTree heuristics)
      (kind : UpdateKind) : Operation heuristics (PointsToTree heuristics)
  | transform (tree : PointsToTree heuristics)
      (change : PointsToSet heuristics → PointsToSet heuristics) :
      Operation heuristics (PointsToTree heuristics)
  | stampTree (tree : PointsToTree heuristics) (edge : EdgeProperties heuristics) :
      Operation heuristics (PointsToTree heuristics)
  /-- The hook for values that widening moves upwards, called directly. -/
  | onWidening (set : PointsToSet heuristics) : Operation heuristics (PointsToSet heuristics)
  /-- The hook for values that are moved upwards otherwise, called directly. -/
  | onHoist (set : PointsToSet heuristics) : Operation heuristics (PointsToSet heuristics)
  | record (aliases : AliasMap heuristics) (root : RootId) (tree : PointsToTree heuristics) :
      Operation heuristics (AliasMap heuristics)
  /-- A request to environments. -/
  | askEnvironment {α : Type} (request : Request (Environment heuristics) α) : Operation heuristics α
  | readTaint (environment : Environment heuristics) (location : Location) :
      Operation heuristics (TaintTree heuristics)
  | writeTaint (environment : Environment heuristics) (location : Location) (path : Path)
      (taint : TaintTree heuristics) (kind : UpdateKind) : Operation heuristics (Environment heuristics)
  | cross (taint : TaintTree heuristics) (edge : EdgeProperties heuristics) :
      Operation heuristics (TaintTree heuristics)
  | deepReadHops (environment : Environment heuristics) (aliases : AliasMap heuristics) (hops : Nat)
      (location : Location) : Operation heuristics (TaintTree heuristics)

namespace Operation

variable {heuristics : Heuristics} {α : Type}

/-- Carries out an operation request by request. -/
def run : Operation heuristics α → Except Fault α
  | .askEdge request => EdgeProperties.interface.run request
  | .addFeatures edge features => edge.addFeaturesVia features
  | .setAlwaysCollapse edge => edge.setAlwaysCollapseVia
  | .stampEdge edge further => edge.addPropertiesVia further
  | .askSet request => PointsToSet.interface.run request
  | .getEdge set target => set.getVia target
  | .insertEdge set target edge => set.insertVia target edge
  | .stampSet set edge => set.withPropertiesVia edge
  | .askTree request => PointsToTree.interface.run request
  | .rawRead tree path => tree.rawReadVia path
  | .rawReadLongest tree path => tree.rawReadLongestVia path
  | .visit tree => tree.visitVia
  | .visitUp tree => tree.visitUpVia
  | .write tree path set kind => tree.writeVia path set kind
  | .writeTree tree path grafted kind => tree.writeTreeVia path grafted kind
  | .transform tree change => tree.transformVia fun set => pure (change set)
  | .stampTree tree edge => tree.withPropertiesVia edge
  | .onWidening set => PointsToTree.policy.onWidening.call set
  | .onHoist set => PointsToTree.policy.onHoist.call set
  | .record aliases root tree => aliases.insertVia root tree
  | .askEnvironment request => Environment.interface.run request
  | .readTaint environment location => environment.readVia location
  | .writeTaint environment location path taint kind => environment.writeVia location path taint kind
  | .cross taint edge => taint.crossVia edge
  | .deepReadHops environment aliases hops location =>
      environment.deepReadHopsVia aliases hops location

/-- What the library gives for an operation. -/
def result : Operation heuristics α → Except Fault α
  | .askEdge request => request.answer EdgeProperties.extremes
  | .addFeatures edge features => pure (edge.addFeatures features)
  | .setAlwaysCollapse edge => pure edge.setAlwaysCollapse
  | .stampEdge edge further => pure (edge.addProperties further)
  | .askSet request => request.answer (.ofDomain _)
  | .getEdge set target => set.get target
  | .insertEdge set target edge => pure (set.insert target edge)
  | .stampSet set edge => pure (set.withProperties edge)
  | .askTree (.widen left right) => left.widen right
  | .askTree request => request.answer PointsToTree.extremes
  | .rawRead tree path => pure (tree.rawRead path)
  | .rawReadLongest tree path => pure (tree.rawReadLongest path)
  | .visit tree => pure tree.visit
  | .visitUp tree => pure tree.visitUp
  | .write tree path set kind => pure (tree.write path set kind)
  | .writeTree tree path grafted kind => pure (tree.writeTree path grafted kind)
  | .transform tree change => pure (tree.transform change)
  | .stampTree tree edge => pure (tree.withProperties edge)
  | .onWidening set => PointsToTree.policy.onWidening.call set
  | .onHoist set => PointsToTree.policy.onHoist.call set
  | .record aliases root tree => pure (aliases.insert root tree)
  | .askEnvironment request => request.answer (.ofDomain _)
  | .readTaint environment location => pure (environment.read location)
  | .writeTaint environment location path taint kind =>
      pure (environment.write location path taint kind)
  | .cross taint edge => pure (taint.cross edge)
  | .deepReadHops environment aliases hops location =>
      pure (environment.deepReadHops aliases hops location)

/-- The fault that an operation asks for outright, if it does. -/
def refusal? : Operation heuristics α → Option Fault
  | .askEdge .top => some .edgeTop
  | .askEdge (.setToTop _) => some .edgeTop
  | .askEdge (.setToBottom _) => some .edgeReset
  | .getEdge set _ => if Domain.isTop set then some .edgeTop else none
  | .askTree .top => some .pointsToTop
  | .askTree (.setToTop _) => some .pointsToTop
  | .askTree (.setToBottom _) => some .pointsToReset
  | .onWidening _ => some .pointsToWidened
  | .onHoist _ => some .pointsToHoisted
  | _ => none

theorem run_eq_result (operation : Operation heuristics α) : operation.run = operation.result := by
  cases operation with
  | askEdge request =>
      rw [run, EdgeProperties.interface_eq, Interface.run_answering, result]
  | addFeatures edge features =>
      exact edge.addFeaturesVia_eq features
  | setAlwaysCollapse edge =>
      exact edge.setAlwaysCollapseVia_eq
  | stampEdge edge further =>
      exact edge.addPropertiesVia_eq further
  | askSet request =>
      rw [run, PointsToSet.interface_eq, Interface.total, Interface.run_answering, result]
  | getEdge set target =>
      exact set.getVia_eq target
  | insertEdge set target edge =>
      exact set.insertVia_eq target edge
  | stampSet set edge =>
      exact set.withPropertiesVia_eq edge
  | askTree request =>
      rw [run, PointsToTree.interface_eq, Interface.run_answering]
      -- The library's widening can be refused by its type; it never is, as the height is not bounded.
      cases request <;> rfl
  | rawRead tree path =>
      exact tree.rawReadVia_eq path
  | rawReadLongest tree path =>
      exact tree.rawReadLongestVia_eq path
  | visit tree =>
      exact tree.visitVia_eq
  | visitUp tree =>
      exact tree.visitUpVia_eq
  | write tree path set kind =>
      exact tree.writeTreeVia_eq path (.leaf set) kind
  | writeTree tree path grafted kind =>
      exact tree.writeTreeVia_eq path grafted kind
  | transform tree change =>
      exact tree.transformVia_eq change
  | stampTree tree edge =>
      exact tree.withPropertiesVia_eq edge
  | onWidening set =>
      rfl
  | onHoist set =>
      rfl
  | record aliases root tree =>
      exact aliases.insertVia_eq root tree
  | askEnvironment request =>
      rw [run, Environment.interface_eq, Interface.total, Interface.run_answering, result]
  | readTaint environment location =>
      exact environment.readVia_eq location
  | writeTaint environment location path taint kind =>
      exact environment.writeVia_eq location path taint kind
  | cross taint edge =>
      exact taint.crossVia_eq edge
  | deepReadHops environment aliases hops location =>
      exact environment.deepReadHopsVia_eq aliases hops location

theorem result_eq_error_iff (operation : Operation heuristics α) (fault : Fault) :
    operation.result = .error fault ↔ operation.refusal? = some fault := by
  have outright {asked : Fault} :
      (Except.error asked : Except Fault α) = .error fault ↔ some asked = some fault := by
    rw [Except.error.injEq, Option.some.injEq]
  cases operation with
  | askEdge request =>
      cases request with
      | top | setToBottom | setToTop =>
          exact outright
      | _ =>
          exact ⟨nofun, nofun⟩
  | askSet request =>
      cases request <;> exact ⟨nofun, nofun⟩
  | getEdge set target =>
      exact set.get_eq_error_iff target fault
  | askTree request =>
      cases request with
      | top | setToBottom | setToTop =>
          exact outright
      | _ =>
          exact ⟨nofun, nofun⟩
  | onWidening set | onHoist set =>
      exact outright
  | askEnvironment request =>
      cases request <;> exact ⟨nofun, nofun⟩
  | _ =>
      exact ⟨nofun, nofun⟩

/-- Every operation gives what the library gives, and the only operations that come to a fault are those
that ask for it outright. In particular joins, widenings, meets, narrowings and comparisons, inserts,
reads, writes, changes, stamps, visits, crossings and deep reads never do, whatever they are given. -/
theorem run_eq_result_and_refused_iff (operation : Operation heuristics α) :
    operation.run = operation.result ∧
      ∀ fault, operation.run = .error fault ↔ operation.refusal? = some fault := by
  have same := operation.run_eq_result
  refine ⟨same, fun fault => ?_⟩
  rw [same]
  exact operation.result_eq_error_iff fault

end Operation

end AliasTaint
