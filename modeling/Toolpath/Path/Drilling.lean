import Std.Data.HashMap
import Toolpath.Path.Walk
import Toolpath.Path.Waypoint

/-!
# Repeated drilling

A plunge is a linear move straight down. The depth that plunges have cleared is remembered for
each place, and a later plunge at the same place passes through that depth at rapid speed.
-/

namespace Toolpath.Path

open Toolpath.Geometry (Point)

/-- Equal numbers have equal keys: the zeros share one. -/
def siteKey (x : Float) : UInt64 := if x == 0 then 0 else x.toBits

abbrev Site := UInt64 × UInt64

def site (p : Point) : Site := (siteKey p.x, siteKey p.y)

def plunges (last : Point) (w : Waypoint) : Bool :=
  w.point.sameXY last && w.point.z < last.z && w.motion == .linear

/-- The point before, and the lowest plunge so far at each place. -/
structure Drilled where
  last : Point
  depths : Std.HashMap Site Float

def Drilled.depth? (d : Drilled) (p : Point) : Option Float := d.depths[site p]?

def Drilled.deepen (d : Drilled) (p : Point) : Drilled :=
  { last := p
    depths := d.depths.insert (site p) (match d.depth? p with
      | some depth => Number.smaller depth p.z
      | none => p.z) }

/-- A plunge through a place cleared down to `depth?`, which counts only when it lies below the
start of the plunge. -/
def plunge (start : Float) (depth? : Option Float) (w : Waypoint) : List Waypoint :=
  match depth? with
  | none => [w]
  | some depth =>
    if start ≤ depth then [w]
    else if depth ≤ w.point.z then [w.withMotion .rapid]
    else [(w.withZ depth).withMotion .rapid, w]

def drillStep (d : Drilled) (w : Waypoint) : Drilled × List Waypoint :=
  if plunges d.last w then (d.deepen w.point, plunge d.last.z (d.depth? w.point) w)
  else ({ d with last := w.point }, [w])

def drill (p : Path) : Path := walk drillStep { last := .origin, depths := ∅ } p

end Toolpath.Path
