import AliasTaint.Json.Forms
import AliasTaint.Proofs.SortedSet
import Mathlib.Data.List.Forall2

/-!
# Spellings in JSON

Which JSON values spell a value.  A record is spelled by an object that has a member for each field,
in any order and among any others, or by an array of exactly its fields.  An alternative without
content is spelled by its name, or by an object that maps the name to null.  A set is spelled by an
array of its members, in any order and with repetitions.  Only the heuristics may leave fields out,
and only they refuse members that they do not know.

The spellings are described here without regard to how a value is read.
-/

namespace AliasTaint

/-- Types whose values are spelled in JSON. -/
class JsonSpelling (α : Type) where
  Spells : Json → α → Prop

export JsonSpelling (Spells)

namespace Json

/-! ## Shapes -/

/-- An alternative without content. -/
def IsBare (name : String) (json : Json) : Prop :=
  json = .string name ∨ json = .tagged name .null

/-- A record, given by the names of its fields and by what is asked of each of them. -/
def IsRecord (fields : List (String × (Json → Prop))) : Json → Prop
  | .object members =>
      ∀ field ∈ fields, ∃ part, members.lookup field.1 = some part ∧ field.2 part
  | .array items => List.Forall₂ (fun field item => field.2 item) fields items
  | _ => False

end Json

/-- A list, item by item. -/
def SpellsList {α : Type} [JsonSpelling α] (json : Json) (values : List α) : Prop :=
  ∃ items, json = .array items ∧ List.Forall₂ Spells items values

/-! ## Spellings of each type -/

instance : JsonSpelling String where
  Spells json text := json = .string text

instance : JsonSpelling UInt32 where
  Spells json number := json = .nat number.toNat

instance : JsonSpelling UInt64 where
  Spells json number := json = .nat number.toNat

instance {K : Type} [Ord K] [JsonSpelling K] : JsonSpelling (SortedSet K) where
  Spells json set :=
    ∃ members : List K, SpellsList json members ∧ ∀ member, member ∈ set ↔ member ∈ members

instance : JsonSpelling PathElement where
  Spells json
    | .field name => json = .tagged "Field" (.string name)
    | .index key => json = .tagged "Index" (.string key)
    | .anyIndex => json.IsBare "AnyIndex"

instance : JsonSpelling Path where
  Spells json path := json.IsRecord [("elements", (SpellsList · path))]

instance : JsonSpelling RootId where
  Spells json root := Spells json root.number

instance : JsonSpelling Location where
  Spells json location :=
    json.IsRecord [("root", (Spells · location.root)), ("path", (Spells · location.path))]

instance : JsonSpelling CollapseDepth where
  Spells json
    | .bottom => json = .null
    | .level number => Spells json number

instance : JsonSpelling Feature where
  Spells json feature := Spells json feature.name

/-- The two sets are members of an object; an array is no spelling of them. -/
instance : JsonSpelling FeatureSet where
  Spells json
    | .bottom => json.IsBare "Bottom"
    | .top => json.IsBare "Top"
    | .value may always =>
        ∃ members, json = .tagged "Value" (.object members) ∧
          (Json.object members).IsRecord [("may", (Spells · may)), ("always", (Spells · always))]

instance : JsonSpelling Position where
  Spells json position :=
    json.IsRecord [("file", (Spells · position.file)), ("line", (Spells · position.line))]

instance {heuristics : Heuristics} : JsonSpelling (PositionSet heuristics) where
  Spells json
    | .bottom => json.IsBare "Bottom"
    | .widened => json.IsBare "Widened"
    | .listed positions =>
        ∃ content, json = .tagged "Positions" content ∧ Spells content positions

instance {heuristics : Heuristics} : JsonSpelling (EdgeProperties heuristics) where
  Spells json edge :=
    json.IsRecord
      [("local_positions", (Spells · edge.positions)),
       ("locally_inferred_features", (Spells · edge.features)),
       ("collapse_depth", (Spells · edge.collapseDepth))]

instance {heuristics : Heuristics} : JsonSpelling (TaintFrame heuristics) where
  Spells json frame :=
    json.IsRecord
      [("features", (Spells · frame.features)), ("local_positions", (Spells · frame.positions))]

/-- A bound that is left out has its standard value. -/
def SpellsBound (standard bound : UInt64) : Option Json → Prop
  | none => bound = standard
  | some json => Spells json bound

/-- The bounds, of which each may be left out. -/
def SpellsBounds (heuristics : Heuristics) (height positions hops : Option Json) : Prop :=
  SpellsBound Heuristics.standard.maxTreeHeight heuristics.maxTreeHeight height ∧
  SpellsBound Heuristics.standard.maxPositions heuristics.maxPositions positions ∧
  SpellsBound Heuristics.standard.aliasHops heuristics.aliasHops hops

instance : JsonSpelling Heuristics where
  Spells json heuristics :=
    match json with
    | .object members =>
        (∀ entry ∈ members, entry.1 ∈ Heuristics.fieldNames) ∧
          SpellsBounds heuristics
            (members.lookup "max_taint_tree_height_after_widening")
            (members.lookup "max_local_positions")
            (members.lookup "alias_resolution_hops")
    | .array items =>
        items.length ≤ Heuristics.fieldNames.length ∧
          SpellsBounds heuristics items[0]? items[1]? items[2]?
    | _ => False

end AliasTaint
