import Toolpath.Number.Text
import Toolpath.Path.Waypoint

/-!
# Running time

An estimate of the time that a path takes, as a sum over its waypoints of the time for the move and
the time for a change of tools.
-/

namespace Toolpath.Path

open Toolpath.Geometry (Point)

structure Span where
  nanoseconds : Nat
  deriving DecidableEq, Repr

namespace Span

/-- One nanosecond less than `2 ^ 64` seconds. -/
def longest : Span := ⟨Nat.pow 2 64 * Nat.pow 10 9 - 1⟩

def ofWholeSeconds (n : Nat) : Span := ⟨n * Nat.pow 10 9⟩

/-- Sums do not grow beyond the longest span. -/
def add (a b : Span) : Span := ⟨min longest.nanoseconds (a.nanoseconds + b.nanoseconds)⟩

/-- Rounds to the nearest nanosecond, a half to the even neighbour. What is negative, too long or
not a number counts as the longest span. -/
def ofSeconds (x : Float) : Span :=
  match x.toModel.unpack with
  | .zero _ => ⟨0⟩
  | .finite .positive m e _ =>
    let nanoseconds := m * Nat.pow 2 e.toNat * Nat.pow 10 9
    ⟨min longest.nanoseconds (Number.divRound nanoseconds (Nat.pow 2 (-e).toNat))⟩
  | _ => longest

def seconds (s : Span) : Nat := s.nanoseconds / Nat.pow 10 9

def subsecond (s : Span) : Nat := s.nanoseconds % Nat.pow 10 9

def toSeconds (s : Span) : Float := Float.ofNat s.seconds + Float.ofNat s.subsecond / 1e9

end Span

/-- A tool that was announced is at hand. -/
def announcedChange : Span := .ofWholeSeconds 5

def unannouncedChange : Span := .ofWholeSeconds 10

def usualFeedrate : Float := 300

/-- Rapid moves are taken to be this many times as fast as the feedrate. -/
def rapidFactor : Float := 8

structure Progress where
  last : Point
  tools : Option (UInt32 × UInt32)
  elapsed : Span

def Progress.initial : Progress := ⟨.origin, none, ⟨0⟩⟩

def toolTime (tools : Option (UInt32 × UInt32)) (m : Modal) : Span :=
  match tools with
  | none => unannouncedChange
  | some (tool, next) =>
    if tool = m.tool then ⟨0⟩
    else if next = m.tool then announcedChange
    else unannouncedChange

def moveTime (last : Point) (w : Waypoint) : Span :=
  let distance := w.point.distance last
  let feed := if 0 < w.modal.feedrate then w.modal.feedrate else usualFeedrate
  match w.motion with
  | .unset | .clockwise | .counterclockwise => ⟨0⟩
  | .dwell => .ofSeconds (Number.larger w.modal.dwellTime 0)
  | .rapid => .ofSeconds (distance / (feed * rapidFactor) * 60)
  | .linear => .ofSeconds (distance / feed * 60)

def Progress.step (s : Progress) (w : Waypoint) : Progress where
  last := w.point
  tools := some (w.modal.tool, w.modal.nextTool)
  elapsed := (s.elapsed.add (toolTime s.tools w.modal)).add (moveTime s.last w)

def runningTime (p : Path) : Span := (p.foldl Progress.step .initial).elapsed

end Toolpath.Path
