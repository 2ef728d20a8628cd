import Toolpath.Path.SafetyPlane

/-!
# The way home

Rapid moves that end a path at the origin.
-/

namespace Toolpath.Path

structure Shutdown where
  spindle : Bool
  coolant : Bool

def Shutdown.apply (s : Shutdown) (w : Waypoint) : Waypoint :=
  { w with modal := { w.modal with
      spindleOn := w.modal.spindleOn && !s.spindle
      mist := w.modal.mist && !s.coolant
      flood := w.modal.flood && !s.coolant } }

/-- Up to the safety height, across, and down; a step that changes nothing is left out. Above or
below the origin the tool goes straight to it. -/
def homeward (height : Float) (last : Waypoint) : List Waypoint :=
  let here := last.withMotion .rapid
  if last.point.x == 0 && last.point.y == 0 then [here.withZ 0]
  else
    let level := last.point.z == height
    let lifted := if level then here else here.withZ height
    let above := lifted.withXY 0 0
    (if level then [] else [lifted]) ++ [above] ++
      (if above.point.z == 0 then [] else [above.withZ 0])

def atOrigin (w : Waypoint) : Bool := w.point.x == 0 && w.point.y == 0 && w.point.z == 0

def mapLast (f : Waypoint → Waypoint) (p : Path) : Path :=
  match p.getLast? with
  | none => p
  | some w => p.dropLast ++ [f w]

/-- The final waypoint alone is shut down. An empty path stays empty. -/
def returnHome (s : Shutdown) (p : Path) : Path :=
  match p.getLast? with
  | none => p
  | some last =>
    if atOrigin last then mapLast s.apply p
    else p ++ mapLast s.apply (homeward (safetyHeight p) last)

end Toolpath.Path
