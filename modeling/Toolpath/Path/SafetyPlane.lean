import Toolpath.Path.Refusal
import Toolpath.Path.Walk
import Toolpath.Path.Waypoint

/-!
# The safety plane

The highest level of a path is where the tool travels freely.
-/

namespace Toolpath.Path

open Toolpath.Geometry (Point)

/-- The highest of some levels, and at least zero. -/
def highest (zs : List Float) : Float := zs.foldl Number.larger 0

def levels (p : Path) : List Float := p.map (·.point.z)

def safetyHeight (p : Path) : Float := highest p.levels

def nextLevel (p : Path) : Float := highest (p.levels.filter (· < safetyHeight p))

/-- A waypoint at the old height moves to the new one if the tool rises to it straight or comes to
it at that height. -/
def moveLevel (old new : Float) (last : Point) (w : Waypoint) : Point × List Waypoint :=
  let moves := w.point.z == old && (w.point.sameXY last || last.z == old)
  (w.point, [if moves then w.withZ new else w])

/-- The new height must be above all levels but the highest. -/
def setSafetyHeight (height : Float) (p : Path) : Except Refusal Path :=
  if height ≤ nextLevel p then .error (.heightTooLow (nextLevel p))
  else .ok (walk (moveLevel (safetyHeight p) height) .origin p)

end Toolpath.Path
