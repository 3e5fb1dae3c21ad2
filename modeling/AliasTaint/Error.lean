/-!
# Errors

What can go wrong at the edges of the library: reading access paths, and choosing and loading
heuristics. Each cause is a constructor; its wording is in one place.

A `Fault` is different: it marks an operation that a domain does not have. No operation of the
library itself runs into one; only a caller that asks for such an operation does.
-/

namespace AliasTaint

/-! ## Configuration -/

/-- Why the text of a configuration file could not be read. -/
inductive ReadFailure where
  | notFound
  | notUtf8
  deriving DecidableEq

def ReadFailure.message : ReadFailure → String
  | .notFound => "No such file or directory (os error 2)"
  | .notUtf8 => "stream did not contain valid UTF-8"

/-- Why heuristics were refused. -/
inductive ConfigError where
  /-- A value outside its range; all parts are given as text. -/
  | range (field value least greatest hint : String)
  | unknownPreset (name : String)
  | alreadyInstalled
  | unreadable (cause : ReadFailure)
  /-- The text is not a mapping of the known fields to numbers. -/
  | malformed
  | custom (text : String)
  deriving DecidableEq

/-- The wording of a refusal. Malformed text has no wording of its own. -/
def ConfigError.message? : ConfigError → Option String
  | .range field value least greatest hint =>
      some ("Invalid range for field '" ++ field ++ "': " ++ value ++ " not in " ++ least ++
        "..=" ++ greatest ++ ". " ++ hint)
  | .unknownPreset name =>
      some ("Unknown preset '" ++ name ++ "'. Valid presets: fast, balanced, thorough")
  | .alreadyInstalled => some "Analysis heuristics are already installed"
  | .unreadable cause => some ("IO error: " ++ cause.message)
  | .malformed => none
  | .custom text => some text

/-! ## All errors -/

/-- Errors of the library. -/
inductive Error where
  /-- Text that is no access path, with the reason. -/
  | invalidPath (text reason : String)
  | config (cause : ConfigError)
  deriving DecidableEq

def Error.message? : Error → Option String
  | .invalidPath text reason => some ("Invalid path '" ++ text ++ "': " ++ reason)
  | .config cause => cause.message?.map ("Configuration error: " ++ ·)

/-! ## Operations that a domain does not have -/

/-- A request for an operation that the domain does not have. -/
inductive Fault where
  /-- Edge properties have no greatest element. -/
  | edgeTop
  /-- Edge properties are never reset to bottom. -/
  | edgeReset
  /-- Points-to trees have no greatest element. -/
  | pointsToTop
  /-- Points-to trees are never reset to bottom. -/
  | pointsToReset
  /-- The height of points-to trees is not bounded by widening. -/
  | pointsToWidened
  /-- Values of points-to trees are never moved upwards. -/
  | pointsToHoisted
  deriving DecidableEq

/-- The wording of a fault, after the words that introduce every fault. -/
def Fault.report (text : String) : String :=
  "internal error: entered unreachable code: " ++ text

def Fault.text : Fault → String
  | .edgeTop => "AliasingProperties has no top element"
  | .edgeReset => "AliasingProperties cannot be reset to bottom in place"
  | .pointsToTop => "PointsToTree has no top element"
  | .pointsToReset => "PointsToTree cannot be reset to bottom in place"
  | .pointsToWidened => "points-to trees are never collapsed by widening"
  | .pointsToHoisted => "points-to trees are never hoisted"

def Fault.message (fault : Fault) : String :=
  Fault.report fault.text

end AliasTaint
