import AliasTaint.Partition
import AliasTaint.Taint.Frame

/-!
# Taint

Taint assigns a frame to every kind. Kinds without a frame are absent; the top taint has every kind.
-/

namespace AliasTaint

/-- The frames of the kinds that are present. -/
structure Taint (heuristics : Heuristics) where
  frames : Partition Kind (TaintFrame heuristics)
  deriving DecidableEq

namespace Taint

variable {heuristics : Heuristics}

def bottom : Taint heuristics := ⟨.empty⟩

def top : Taint heuristics := ⟨.top⟩

/-- Adds taint of a kind to what is present of it. -/
def add (taint : Taint heuristics) (kind : Kind) (frame : TaintFrame heuristics) :
    Taint heuristics :=
  ⟨taint.frames.update kind fun current => current.join frame⟩

def ofFrame (kind : Kind) (frame : TaintFrame heuristics) : Taint heuristics :=
  bottom.add kind frame

def ofKind (kind : Kind) : Taint heuristics :=
  ofFrame kind .empty

/-- Adds frames one after the other. -/
def ofFrames (frames : List (Kind × TaintFrame heuristics)) : Taint heuristics :=
  frames.foldl (fun taint entry => taint.add entry.1 entry.2) bottom

/-! ## Looking at taint -/

/-- The frame of a kind. -/
def frame (taint : Taint heuristics) (kind : Kind) : TaintFrame heuristics :=
  taint.frames.get kind

/-- The taint has a frame of its own for a kind. -/
def has (taint : Taint heuristics) (kind : Kind) : Bool :=
  (taint.frames.binding? kind).isSome

def kinds (taint : Taint heuristics) : List Kind :=
  taint.frames.keys

def size (taint : Taint heuristics) : Nat :=
  taint.frames.size

def isEmpty (taint : Taint heuristics) : Bool :=
  taint.frames.isEmpty

/-! ## Stamping every frame -/

def addPosition (taint : Taint heuristics) (position : Position) : Taint heuristics :=
  ⟨taint.frames.transform fun frame => frame.addPosition position⟩

def addPositions (taint : Taint heuristics) (positions : PositionSet heuristics) :
    Taint heuristics :=
  if positions.isEmpty || positions.isBottom then
    taint
  else
    ⟨taint.frames.transform fun frame => frame.addPositions positions⟩

def addFeatures (taint : Taint heuristics) (features : FeatureSet) : Taint heuristics :=
  if features.isEmpty || features.isBottom then
    taint
  else
    ⟨taint.frames.transform fun frame => frame.addFeatures features⟩

instance : Domain (Taint heuristics) where
  bottom := bottom
  isBottom taint := Domain.isBottom taint.frames
  isTop taint := Domain.isTop taint.frames
  leq left right := Domain.leq left.frames right.frames
  join left right := ⟨Domain.join left.frames right.frames⟩
  widen left right := ⟨Domain.widen left.frames right.frames⟩
  meet left right := ⟨Domain.meet left.frames right.frames⟩
  narrow left right := ⟨Domain.narrow left.frames right.frames⟩

instance : HasTop (Taint heuristics) :=
  ⟨top⟩

instance : Render (Taint heuristics) where
  render taint := render taint.frames

instance : Inspect (Taint heuristics) where
  inspect taint := Text.record "Taint" [("frames", inspect taint.frames)]

end Taint

end AliasTaint
