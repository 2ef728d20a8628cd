import Toolpath.Path.Waypoint

/-!
# Straight runs

Moves that go on in exactly the same direction are merged, and moves that go nowhere are dropped.
-/

namespace Toolpath.Path

open Toolpath.Geometry (Point)

structure Heading where
  motion : Motion
  direction : Point

def Heading.same (a b : Heading) : Bool :=
  a.motion == b.motion && a.direction.x == b.direction.x && a.direction.y == b.direction.y &&
    a.direction.z == b.direction.z

/-- The kept waypoints are held last one first. There is a heading when the last kept one is a
move. -/
structure Straightening where
  last : Point
  heading : Option Heading
  kept : List Waypoint

namespace Straightening

def initial : Straightening := ⟨.origin, none, []⟩

def continues (s : Straightening) (h : Heading) : Bool := s.heading.any (·.same h)

def step (s : Straightening) (w : Waypoint) : Straightening :=
  if w.motion.travels then
    let delta := w.point.sub s.last
    let length := delta.norm
    if length == 0 then { s with last := w.point }
    else
      let heading := ⟨w.motion, ⟨delta.x / length, delta.y / length, delta.z / length⟩⟩
      if s.continues heading then { s with last := w.point, kept := w :: s.kept.tail }
      else { last := w.point, heading := some heading, kept := w :: s.kept }
  else { last := w.point, heading := none, kept := w :: s.kept }

end Straightening

def straighten (p : Path) : Path := (p.foldl Straightening.step .initial).kept.reverse

end Toolpath.Path
