import Toolpath.Geometry.Point

/-!
# Waypoints

A path is the list of points that the tool visits, each with the settings in force on the way
there.
-/

namespace Toolpath.Path

open Toolpath.Geometry (Point)

/-- How the tool reaches a point. The arc motions are settings only: an arc is travelled in linear
steps. -/
inductive Motion where
  | unset
  | rapid
  | linear
  | clockwise
  | counterclockwise
  | dwell
  deriving DecidableEq, Repr

def Motion.travels : Motion → Bool
  | .rapid | .linear => true
  | _ => false

/-- Settings that last until they are changed. Feedrates are in millimetres a minute, and the
dwell time in seconds counts only while dwelling. -/
structure Modal where
  motion : Motion
  feedrate : Float
  spindleOn : Bool
  spindleClockwise : Bool
  spindleSpeed : Float
  mist : Bool
  flood : Bool
  tool : UInt32
  nextTool : UInt32
  dwellTime : Float

def Modal.initial : Modal where
  motion := .unset
  feedrate := 0
  spindleOn := false
  spindleClockwise := false
  spindleSpeed := 0
  mist := false
  flood := false
  tool := 0
  nextTool := 0
  dwellTime := 0

structure Waypoint where
  modal : Modal
  point : Point

namespace Waypoint

def initial : Waypoint := ⟨.initial, .origin⟩

def motion (w : Waypoint) : Motion := w.modal.motion

def withMotion (w : Waypoint) (m : Motion) : Waypoint :=
  { w with modal := { w.modal with motion := m } }

def withPoint (w : Waypoint) (p : Point) : Waypoint := { w with point := p }

def withZ (w : Waypoint) (z : Float) : Waypoint := w.withPoint { w.point with z }

def withXY (w : Waypoint) (x y : Float) : Waypoint := w.withPoint { w.point with x, y }

end Waypoint

end Toolpath.Path

namespace Toolpath

abbrev Path := List Path.Waypoint

end Toolpath
