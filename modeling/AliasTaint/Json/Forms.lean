import AliasTaint.Json.Value
import AliasTaint.PointsTo.Edge
import AliasTaint.Access.Location
import AliasTaint.Taint.Frame

/-!
# JSON forms

How paths, locations, the value domains and the heuristics are written as JSON, and what is read
back. Sets are arrays; any order and any repetition is read, and members are written once, in order.
Reading checks shapes and number ranges, and nothing about the meaning: a set may be read that lists
more positions than the heuristics allow.
-/

namespace AliasTaint

open Json (field? record?)

/-! ## Sets -/

instance {K : Type} [Ord K] [Std.TransOrd K] [Std.LawfulEqOrd K] [JsonForm K] :
    JsonForm (SortedSet K) where
  encode set := JsonForm.encodeList set.toList
  decode? json := (JsonForm.decodeList? json).map SortedSet.ofList

/-! ## Access paths -/

instance : JsonForm PathElement where
  encode
    | .field name => .tagged "Field" (encode name)
    | .index key => .tagged "Index" (encode key)
    | .anyIndex => .string "AnyIndex"
  decode? json :=
    (json.bare? "AnyIndex" .anyIndex).or <|
      ((json.content? "Field").bind fun content => (decode? content).map .field).or <|
        (json.content? "Index").bind fun content => (decode? content).map .index

instance : JsonForm Path where
  encode path := .object [("elements", JsonForm.encodeList path)]
  decode? json :=
    (json.fields? ["elements"]).bind <| field? JsonForm.decodeList? record?

instance : JsonForm RootId where
  encode root := encode root.number
  decode? json := (decode? json).map RootId.mk

instance : JsonForm Location where
  encode location :=
    .object [("root", encode location.root), ("path", encode location.path)]
  decode? json :=
    (json.fields? ["root", "path"]).bind <|
      field? decode? fun root => field? decode? fun path => record? { root, path }

/-! ## Value domains -/

instance : JsonForm CollapseDepth where
  encode
    | .bottom => .null
    | .level number => encode number
  decode?
    | .null => some .bottom
    | json => (decode? json).map .level

instance : JsonForm Feature where
  encode feature := encode feature.name
  decode? json := (decode? json).map Feature.mk

instance : JsonForm FeatureSet where
  encode
    | .bottom => .string "Bottom"
    | .top => .string "Top"
    | .value may always =>
        .tagged "Value" (.object [("may", encode may), ("always", encode always)])
  decode? json :=
    (json.bare? "Bottom" .bottom).or <|
      (json.bare? "Top" .top).or <|
        (json.content? "Value").bind fun content =>
          (content.members? ["may", "always"]).bind <|
            field? decode? fun may => field? decode? fun always => record? (.value may always)

instance : JsonForm Position where
  encode position :=
    .object [("file", encode position.file), ("line", encode position.line)]
  decode? json :=
    (json.fields? ["file", "line"]).bind <|
      field? decode? fun file => field? decode? fun line => record? { file, line }

instance {heuristics : Heuristics} : JsonForm (PositionSet heuristics) where
  encode
    | .bottom => .string "Bottom"
    | .widened => .string "Widened"
    | .listed positions => .tagged "Positions" (encode positions)
  decode? json :=
    (json.bare? "Bottom" .bottom).or <|
      (json.bare? "Widened" .widened).or <|
        (json.content? "Positions").bind fun content => (decode? content).map .listed

instance {heuristics : Heuristics} : JsonForm (EdgeProperties heuristics) where
  encode edge :=
    .object
      [("local_positions", encode edge.positions),
       ("locally_inferred_features", encode edge.features),
       ("collapse_depth", encode edge.collapseDepth)]
  decode? json :=
    (json.fields? ["local_positions", "locally_inferred_features", "collapse_depth"]).bind <|
      field? decode? fun positions => field? decode? fun features =>
        field? decode? fun collapseDepth => record? { positions, features, collapseDepth }

instance : JsonForm Kind where
  encode kind := encode kind.name
  decode? json := (decode? json).map Kind.mk

instance {heuristics : Heuristics} : JsonForm (TaintFrame heuristics) where
  encode frame :=
    .object
      [("features", encode frame.features), ("local_positions", encode frame.positions)]
  decode? json :=
    (json.fields? ["features", "local_positions"]).bind <|
      field? decode? fun features => field? decode? fun positions => record? { features, positions }

/-! ## Heuristics -/

instance : JsonForm Preset where
  encode
    | .fast => .string "fast"
    | .balanced => .string "balanced"
    | .thorough => .string "thorough"
  decode? json :=
    (json.bare? "fast" .fast).or <|
      (json.bare? "balanced" .balanced).or <|
        json.bare? "thorough" .thorough

namespace Heuristics

/-- The names of the bounds, in the order in which an array lists them. -/
def fieldNames : List String :=
  standard.bounds.map Bound.field

/-- A bound that may be left out. -/
def boundOr (otherwise : UInt64) : Option Json → Option UInt64
  | none => some otherwise
  | some json => decode? json

/-- Reads the bounds that are given and takes the standard value of the others. -/
def ofGiven? (height positions hops : Option Json) : Option Heuristics :=
  (boundOr standard.maxTreeHeight height).bind fun maxTreeHeight =>
    (boundOr standard.maxPositions positions).bind fun maxPositions =>
      (boundOr standard.aliasHops hops).map fun aliasHops =>
        { maxTreeHeight, maxPositions, aliasHops }

end Heuristics

/-- Bounds may be left out, at the end of an array as well, but no others may be given. -/
instance : JsonForm Heuristics where
  encode heuristics :=
    .object (heuristics.bounds.map fun bound => (bound.field, encode bound.value))
  decode?
    | .object members =>
        if members.all fun entry => Heuristics.fieldNames.contains entry.1 then
          Heuristics.ofGiven?
            (members.lookup "max_taint_tree_height_after_widening")
            (members.lookup "max_local_positions")
            (members.lookup "alias_resolution_hops")
        else
          none
    | .array items =>
        if items.length ≤ Heuristics.fieldNames.length then
          Heuristics.ofGiven? items[0]? items[1]? items[2]?
        else
          none
    | _ => none

end AliasTaint
