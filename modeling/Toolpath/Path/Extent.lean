import Toolpath.Path.Waypoint

/-!
# Extent

The box around a path and the feedrates on it.
-/

namespace Toolpath.Path

open Toolpath.Geometry (Point)
open Number (larger smaller)

/-- The feedrates are listed in the order of their first use. -/
structure Extent where
  low : Point
  high : Point
  feedrates : List Float

def Extent.at (p : Point) : Extent := ⟨p, p, []⟩

def addFeedrate (feed : Float) (feeds : List Float) : List Float :=
  if feeds.any (· == feed) then feeds else feeds ++ [feed]

def Extent.include (e : Extent) (w : Waypoint) : Extent :=
  let p := w.point
  { low := ⟨smaller e.low.x p.x, smaller e.low.y p.y, smaller e.low.z p.z⟩
    high := ⟨larger e.high.x p.x, larger e.high.y p.y, larger e.high.z p.z⟩
    feedrates := addFeedrate w.modal.feedrate e.feedrates }

def extent? : Path → Option Extent
  | [] => none
  | w :: ws => some ((w :: ws).foldl Extent.include (.at w.point))

end Toolpath.Path
