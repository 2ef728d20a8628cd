import Toolpath.Geometry.Point
import Toolpath.Machine.Fault

/-!
# Work frames

Six frames of reference, each with an offset from the machine's own coordinates. One frame is
selected. The override puts the machine's own coordinates in force without changing the selection.
-/

namespace Toolpath.Machine

open Toolpath.Geometry (Point)

structure Frames where
  offsets : Vector Point 6
  selected : Fin 6
  override : Bool

namespace Frames

def initial : Frames where
  offsets := Vector.replicate 6 .origin
  selected := 0
  override := false

/-- Frames are numbered from one. -/
def slot (index : Nat) : Except Fault (Fin 6) :=
  if h : 1 ≤ index ∧ index ≤ 6 then .ok ⟨index - 1, by omega⟩
  else .error (.noSuchFrame (Float.ofNat index))

def select (f : Frames) (index : Nat) : Except Fault Frames :=
  (slot index).map fun s => { f with selected := s }

def setOffset (f : Frames) (index : Nat) (offset : Point) : Except Fault Frames :=
  (slot index).map fun s => { f with offsets := f.offsets.set s.val offset s.isLt }

def number (f : Frames) : Nat := f.selected + 1

def offset (f : Frames) : Point := if f.override then .origin else f.offsets[f.selected]

end Frames

end Toolpath.Machine
