import Toolpath.Path.Walk
import Toolpath.Path.Waypoint

/-!
# Retractions

A move straight up is made at rapid speed.
-/

namespace Toolpath.Path

open Toolpath.Geometry (Point)

def rises (last : Point) (w : Waypoint) : Bool := w.point.sameXY last && last.z < w.point.z

def retract (last : Point) (w : Waypoint) : Point × List Waypoint :=
  (w.point, [if rises last w then w.withMotion .rapid else w])

def lift (p : Path) : Path := walk retract .origin p

end Toolpath.Path
