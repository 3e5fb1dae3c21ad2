import AliasTaint.Heuristics.Basic
import AliasTaint.Yaml.Document

/-!
# Heuristics as YAML text

Heuristics are written as a mapping of their names to numbers, one to a line. Every bound may be
left out, but none may be given twice, and no other name may be given. An empty document gives none
of them.
-/

namespace AliasTaint.Heuristics

/-- Adds an entry of a mapping to the bounds that are given before it. -/
def addBound (given : List (String × UInt64)) (entry : Yaml.Content × Yaml.Content) :
    Option (List (String × UInt64)) :=
  let name := entry.1.scalar.text
  if standard.bounds.any (fun bound => bound.field = name) && (given.lookup name).isNone then
    entry.2.number?.map fun value => given ++ [(name, value)]
  else
    none

/-- Heuristics from the bounds that are given. -/
def ofBounds (given : List (String × UInt64)) : Heuristics where
  maxTreeHeight :=
    (given.lookup "max_taint_tree_height_after_widening").getD standard.maxTreeHeight
  maxPositions := (given.lookup "max_local_positions").getD standard.maxPositions
  aliasHops := (given.lookup "alias_resolution_hops").getD standard.aliasHops

/-- Reads heuristics from YAML text, whatever their ranges. -/
def decodeYaml (text : String) : Except ConfigError Heuristics :=
  match (Yaml.readMapping text).bind fun entries => entries.foldlM addBound [] with
  | none => .error .malformed
  | some given => .ok (ofBounds given)

/-- Reads heuristics from YAML text, and checks their ranges. -/
def ofYaml (text : String) : Except ConfigError Heuristics :=
  decodeYaml text >>= fun heuristics => heuristics.validate.map fun () => heuristics

/-- Reads heuristics from the bytes of a file, if there is one. -/
def ofFile (content : Option ByteArray) : Except ConfigError Heuristics :=
  match content with
  | none => .error (.unreadable .notFound)
  | some bytes =>
      match String.fromUTF8? bytes with
      | none => .error (.unreadable .notUtf8)
      | some text => ofYaml text

/-- Writes heuristics as YAML text, one bound to a line. -/
def toYaml (heuristics : Heuristics) : String :=
  String.join (heuristics.bounds.map fun bound =>
    bound.field ++ ": " ++ inspect bound.value ++ "\n")

end AliasTaint.Heuristics
