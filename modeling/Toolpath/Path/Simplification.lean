import Toolpath.Path.Waypoint

/-!
# Simplification

A window of three points slides along each run of moves with one motion. The middle point is
dropped when the way through it is longer than the direct way by less than the tolerance.
-/

namespace Toolpath.Path

open Toolpath.Geometry (Point)

/-- Up to three points of the current run, oldest first. -/
inductive Window where
  | empty
  | one (a : Point)
  | two (a b : Point)
  | three (a b c : Point)

namespace Window

def slide (p : Point) : Window → Window
  | .empty => .one p
  | .one a => .two a p
  | .two a b => .three a b p
  | .three _ b c => .three b c p

/-- Whether the middle point of a full window hardly lengthens the way. -/
def redundant (tolerance : Float) : Window → Bool
  | .three a b c => b.distance a + c.distance b - c.distance a < tolerance
  | _ => false

def dropMiddle : Window → Window
  | .three a _ c => .three a a c
  | w => w

end Window

/-- The kept waypoints are held last one first. -/
structure Simplification where
  run : Option Motion
  window : Window
  kept : List Waypoint

namespace Simplification

def initial : Simplification := ⟨none, .empty, []⟩

/-- A move of another motion starts a new run. -/
def windowFor (s : Simplification) (motion : Motion) : Window :=
  if s.run = some motion then s.window else .empty

def step (tolerance : Float) (s : Simplification) (w : Waypoint) : Simplification :=
  if w.motion.travels then
    let window := (s.windowFor w.motion).slide w.point
    if window.redundant tolerance then
      { run := some w.motion, window := window.dropMiddle, kept := w :: s.kept.tail }
    else { run := some w.motion, window, kept := w :: s.kept }
  else { s with window := .empty, kept := w :: s.kept }

end Simplification

def simplify (tolerance : Float) (p : Path) : Path :=
  (p.foldl (Simplification.step tolerance) .initial).kept.reverse

end Toolpath.Path
