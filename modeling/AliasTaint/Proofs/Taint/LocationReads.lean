import AliasTaint.Proofs.Taint.DeepRead

/-!
# Reads of several locations

The taint of several locations is the join of the taint of each of them.  The taint of a part of them
can be found in three ways: the part of each location is read and the results are joined; the taint of
the locations is joined first, and the part is read from the join; or the path is added to every
location, and these locations are read.  All three show the same at every path, for plain reads as for
deep reads.

The trees need not be the same, since a read below a missing node and a join each restore the normal
form in their own way.  They are compared by what they show: a join of trees is inside an ideal at a
path exactly if every joined tree is, and a read only moves the path.
-/

namespace AliasTaint

open Domain

variable {heuristics : Heuristics}

/-! ## Parts of locations -/

namespace LocationSet

/-- The parts of some locations that a further path leads to. -/
def extendAll (locations : LocationSet) (path : Path) : LocationSet :=
  .ofList (locations.toList.map fun location => location.extend path)

theorem mem_extendAll {locations : LocationSet} {path : Path} {location : Location} :
    location ∈ locations.extendAll path ↔
      ∃ start ∈ locations, start.extend path = location := by
  refine SortedSet.mem_insertAll.trans ?_
  rw [List.mem_map]
  exact or_iff_right nofun

end LocationSet

namespace Environment

/-! ## Joins over locations -/

section Joined

variable {Good : Taint heuristics → Prop} [SemilatticeOn Good]
  {taintOf : Location → TaintTree heuristics}
  (stores : ∀ location, (taintOf location).tree.Stores Good)

include stores

theorem stores_joinOver (locations : LocationSet) :
    (joinOver locations taintOf).tree.Stores Good := by
  have extended (members : List Location) (start : TaintTree heuristics)
      (startStores : start.tree.Stores Good) :
      (members.foldl (fun taint location => taint.join (taintOf location)) start).tree.Stores
        Good := by
    induction members generalizing start with
    | nil =>
        exact startStores
    | cons location rest inductionHypothesis =>
        exact inductionHypothesis _ (TaintTree.stores_join startStores (stores location))
  exact extended locations.toList .bottom TaintTree.stores_bottom

/-- A join of taint is inside an ideal if all the joined taint is. -/
theorem inside_view_joinOver_iff {Inside : Taint heuristics → Prop} (ideal : Ideal Good Inside)
    (locations : LocationSet) (path : Path) :
    Inside ((joinOver locations taintOf).view path) ↔
      ∀ location ∈ locations, Inside ((taintOf location).view path) := by
  have extended (members : List Location) (start : TaintTree heuristics)
      (startStores : start.tree.Stores Good) :
      Inside ((members.foldl (fun taint location => taint.join (taintOf location)) start).view
          path) ↔
        Inside (start.view path) ∧
          ∀ location ∈ members, Inside ((taintOf location).view path) := by
    induction members generalizing start with
    | nil =>
        exact (and_iff_left nofun).symm
    | cons location rest inductionHypothesis =>
        rw [List.foldl_cons,
          inductionHypothesis _ (TaintTree.stores_join startStores (stores location)),
          TaintTree.inside_view_join_iff ideal startStores (stores location), List.forall_mem_cons,
          and_assoc]
  refine (extended locations.toList .bottom TaintTree.stores_bottom).trans ?_
  exact and_iff_right (TaintTree.inside_view_bottom ideal path)

section Parts

variable {partOf : Location → TaintTree heuristics}
  (partStores : ∀ location, (partOf location).tree.Stores Good)

include partStores

/-- The joined parts show what the part of the join shows. -/
theorem equals_joinOver_read {path : Path}
    (shows : ∀ location below,
      (partOf location).view below = (taintOf location).view (path ++ below))
    (locations : LocationSet) :
    equals (joinOver locations partOf) ((joinOver locations taintOf).read path) := by
  have joinedStores := stores_joinOver stores locations
  have partsStore := stores_joinOver partStores locations
  refine (TaintTree.equals_iff_view_eq partsStore
    (TaintTree.stores_read joinedStores path)).mpr fun below => ?_
  rw [TaintTree.view_read joinedStores]
  refine SemilatticeOn.eq_of_leq_iff (TaintTree.good_view partsStore below)
    (TaintTree.good_view joinedStores (path ++ below)) fun upper goodUpper => ?_
  rw [inside_view_joinOver_iff partStores (ideal_leq goodUpper),
    inside_view_joinOver_iff stores (ideal_leq goodUpper)]
  simp only [shows]

/-- The joined parts show what the join over the extended locations shows. -/
theorem equals_joinOver_extendAll {path : Path}
    (shows : ∀ location below,
      (partOf location).view below = (taintOf (location.extend path)).view below)
    (locations : LocationSet) :
    equals (joinOver locations partOf) (joinOver (locations.extendAll path) taintOf) := by
  have joinedStores := stores_joinOver stores (locations.extendAll path)
  have partsStore := stores_joinOver partStores locations
  refine (TaintTree.equals_iff_view_eq partsStore joinedStores).mpr fun below => ?_
  refine SemilatticeOn.eq_of_leq_iff (TaintTree.good_view partsStore below)
    (TaintTree.good_view joinedStores below) fun upper goodUpper => ?_
  rw [inside_view_joinOver_iff partStores (ideal_leq goodUpper),
    inside_view_joinOver_iff stores (ideal_leq goodUpper)]
  simp only [LocationSet.mem_extendAll, shows]
  constructor
  · rintro covered location ⟨start, member, rfl⟩
    exact covered start member
  · intro covered start member
    exact covered _ ⟨start, member, rfl⟩

end Parts

end Joined

/-! ## Reads of extended locations -/

section Extended

variable {environment : Environment heuristics} (formed : environment.WellFormed)

include formed

theorem view_read_extend (location : Location) (path below : Path) :
    (environment.read (location.extend path)).view below =
      (environment.read location).view (path ++ below) := by
  rw [view_read (wellFormed_treeOf formed location.root),
    view_read (wellFormed_treeOf formed (location.extend path).root)]
  exact congrArg _ (List.append_assoc location.path path below)

/-- The edges that a deep read follows depend on the root alone. -/
theorem view_deepReadHops_extend (aliases : AliasMap heuristics) (hops : Nat) (location : Location)
    (path below : Path) :
    (environment.deepReadHops aliases hops (location.extend path)).view below =
      (environment.deepReadHops aliases hops location).view (path ++ below) := by
  cases hops with
  | zero =>
      exact view_read_extend formed location path below
  | succ hops =>
      have followed := TaintTree.stores_foldl_follow (FeatureSet.admits_true _)
        (stores_whole_targetTaint formed aliases hops) (aliases.admits_true location.root)
        TaintTree.stores_bottom
      rw [deepReadHops_succ, deepReadHops_succ, TaintTree.view_read followed]
      refine (TaintTree.view_read followed (location.path ++ path) below).trans ?_
      rw [List.append_assoc]

end Extended

/-- Plain and deep reads of a part of several locations show what the read of the locations shows
there, and what the read of the parts of the locations shows. -/
theorem readLocationsPath_agrees {environment : Environment heuristics}
    (formed : environment.WellFormed) (aliases : AliasMap heuristics) (locations : LocationSet)
    (path : Path) :
    equals (environment.readLocationsPath locations path)
      ((environment.readLocations locations).read path) ∧
    equals (environment.readLocationsPath locations path)
      (environment.readLocations (locations.extendAll path)) ∧
    equals (environment.deepReadLocationsPath aliases locations path)
      ((environment.deepReadLocations aliases locations).read path) ∧
    equals (environment.deepReadLocationsPath aliases locations path)
      (environment.deepReadLocations aliases (locations.extendAll path)) := by
  have reads := wellFormed_read formed
  have deepReads := stores_whole_deepReadHops formed aliases heuristics.aliasHops.toNat
  have partReads (location : Location) := TaintTree.stores_read (deepReads location) path
  refine ⟨?_, ?_, ?_, ?_⟩
  · exact equals_joinOver_read reads (fun location => reads (location.extend path))
      (fun location => view_read_extend formed location path) locations
  · exact equals_joinOver_extendAll reads (fun location => reads (location.extend path))
      (fun _ _ => rfl) locations
  · exact equals_joinOver_read deepReads partReads
      (fun location => TaintTree.view_read (deepReads location) path) locations
  · refine equals_joinOver_extendAll deepReads partReads (fun location below => ?_) locations
    rw [TaintTree.view_read (deepReads location), view_deepReadHops_extend formed]

/-- A root behind aliases, a root with taint, and the elements of the latter. -/
def aliasedLocations : LocationSet :=
  .ofList [⟨⟨0⟩, []⟩, ⟨⟨1⟩, []⟩, ⟨⟨1⟩, [.anyIndex]⟩]

theorem readLocationsPath_agrees_aliased :
    oneTainted.WellFormed ∧
    (oneTainted.deepReadLocationsPath selfAliases aliasedLocations [.anyIndex]).isBottom = false ∧
    equals (oneTainted.readLocationsPath aliasedLocations [.anyIndex])
      ((oneTainted.readLocations aliasedLocations).read [.anyIndex]) ∧
    equals (oneTainted.readLocationsPath aliasedLocations [.anyIndex])
      (oneTainted.readLocations (aliasedLocations.extendAll [.anyIndex])) ∧
    equals (oneTainted.deepReadLocationsPath selfAliases aliasedLocations [.anyIndex])
      ((oneTainted.deepReadLocations selfAliases aliasedLocations).read [.anyIndex]) ∧
    equals (oneTainted.deepReadLocationsPath selfAliases aliasedLocations [.anyIndex])
      (oneTainted.deepReadLocations selfAliases (aliasedLocations.extendAll [.anyIndex])) := by
  have formed : oneTainted.WellFormed := of_decide_eq_true (by cbv)
  exact ⟨formed, by cbv, readLocationsPath_agrees formed selfAliases aliasedLocations [.anyIndex]⟩

end Environment

end AliasTaint
