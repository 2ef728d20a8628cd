import Toolpath.Geometry.Plane
import Toolpath.Machine.Frames
import Toolpath.Path.Waypoint

/-!
# The machine

Everything that lasts from one block to the next: the modal settings, the frames, the units and
distance modes, the working plane, the tolerances for arcs, and the path travelled so far.
-/

namespace Toolpath

open Toolpath.Geometry (Point Plane)
open Toolpath.Path (Waypoint Modal Motion)

/-- The largest distance between an arc and its chords, and the shortest chord. -/
structure Machine.Tolerances where
  deviation : Float
  chordLength : Float

structure Machine where
  modal : Modal
  frames : Machine.Frames
  inches : Bool
  absoluteMoves : Bool
  absoluteCenters : Bool
  plane : Plane
  tolerances : Machine.Tolerances
  path : Array Waypoint

namespace Machine

def Tolerances.standard : Tolerances := ⟨0.002, 0.01⟩

def positive (name : String) (value : Float) : Except Fault Unit :=
  if 0 < value ∧ value.isFinite then .ok () else .error (.badTolerance name value)

def Tolerances.check (t : Tolerances) : Except Fault Unit := do
  positive "max arc deviation" t.deviation
  positive "min arc line length" t.chordLength

def atOrigin (tolerances : Tolerances) : Machine where
  modal := .initial
  frames := .initial
  inches := false
  absoluteMoves := true
  absoluteCenters := false
  plane := .xy
  tolerances := tolerances
  path := #[.initial]

def initial : Machine := atOrigin .standard

def withTolerances (t : Tolerances) : Except Fault Machine := do
  t.check
  return atOrigin t

def position (m : Machine) : Waypoint := m.path.back?.getD .initial

/-- Millimetres in a unit of length of the program. -/
def scale (m : Machine) : Float := if m.inches then 25.4 else 1

/-- The end of a run. A fault keeps the machine as it was when the fault arose. -/
structure Outcome (ε : Type) where
  machine : Machine
  fault : Option ε

namespace Outcome

variable {ε δ : Type}

def done (m : Machine) : Outcome ε := ⟨m, none⟩

def stopped (m : Machine) (e : ε) : Outcome ε := ⟨m, some e⟩

@[inline] def andThen (o : Outcome ε) (next : Machine → Outcome ε) : Outcome ε :=
  match o.fault with
  | none => next o.machine
  | some _ => o

def mapFault (f : ε → δ) (o : Outcome ε) : Outcome δ := ⟨o.machine, o.fault.map f⟩

end Outcome

def push (m : Machine) (w : Waypoint) : Outcome Fault :=
  if w.point.hasNaN then .stopped m .notANumber
  else .done { m with path := m.path.push w }

def moveTo (m : Machine) (p : Point) : Outcome Fault := m.push ⟨m.modal, p⟩

def dwell (m : Machine) (seconds : Float) : Machine :=
  let modal := { m.modal with motion := .dwell, dwellTime := seconds }
  { m with path := m.path.push ⟨modal, m.position.point⟩ }

end Machine

end Toolpath
