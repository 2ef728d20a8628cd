import Toolpath.Machine.Basic

/-!
# Arcs

An arc runs from the current position around a center in the working plane, and evenly along the
depth axis. The machine travels it in chords.
-/

namespace Toolpath.Machine

open Toolpath.Geometry (Point Plane Local)
open Toolpath.Path (Waypoint)
open Number (hypotenuse)

def pi : Float := 3.141592653589793

/-- An arc in the axes of its plane. The rotations count the started turns, so that one rotation
is at most a full circle. -/
structure Arc where
  start : Local
  finish : Local
  center : Local
  clockwise : Bool
  rotations : Float

namespace Arc

def startX (a : Arc) : Float := a.start.primary - a.center.primary

def startY (a : Arc) : Float := a.start.secondary - a.center.secondary

def finishX (a : Arc) : Float := a.finish.primary - a.center.primary

def finishY (a : Arc) : Float := a.finish.secondary - a.center.secondary

def radius (a : Arc) : Float := hypotenuse a.startX a.startY

def finishRadius (a : Arc) : Float := hypotenuse a.finishX a.finishY

def rise (a : Arc) : Float := a.finish.depth - a.start.depth

/-- Start and end must not lie on the center, and must be equally far from it within the limits. -/
def check (a : Arc) : Except Fault Unit :=
  if a.radius == 0 || a.finishRadius == 0 then .error .zeroRadius
  else
    let difference := (a.finishRadius - a.radius).abs
    let percent := difference / a.radius * 100
    if (0.005 < difference ∧ 0.1 < percent) ∨ 0.5 < difference then
      .error (.radiusMismatch percent difference)
    else .ok ()

def startAngle (a : Arc) : Float := Float.atan2 a.startY a.startX

def finishAngle (a : Arc) : Float := Float.atan2 a.finishY a.finishX

def wholeTurn (a : Arc) : Float := if a.clockwise then -2 * pi else 2 * pi

/-- The angle of the last, started turn between two directions. It is negative for a clockwise arc,
and a full turn when the directions are the same. -/
def partialSweep (a : Arc) (startAngle finishAngle : Float) : Float :=
  let turn := 2 * pi
  let sweep := finishAngle - startAngle
  if sweep == 0 then a.wholeTurn
  else if sweep < 0 ∧ !a.clockwise then sweep + turn
  else if 0 < sweep ∧ a.clockwise then sweep - turn
  else sweep

def extraSweep (a : Arc) : Float :=
  let extra := (a.rotations - 1) * 2 * pi
  if a.clockwise then -extra else extra

def sweepBetween (a : Arc) (startAngle finishAngle : Float) : Float :=
  a.partialSweep startAngle finishAngle + a.extraSweep

def sweep (a : Arc) : Float := a.sweepBetween a.startAngle a.finishAngle

/-- Enough chords to stay within the deviation. -/
def chordsForDeviation (a : Arc) (t : Tolerances) : Nat :=
  if t.deviation < a.radius then
    let angle := 2 * Float.acos (1 - t.deviation / a.radius)
    Number.ceiling (a.sweep / angle).abs
  else 1

/-- As many chords as keep to the shortest length. -/
def chordsForLength (a : Arc) (t : Tolerances) : Nat :=
  let pitch := a.rise / a.sweep
  let length := a.sweep.abs * (a.radius * a.radius + pitch * pitch).sqrt
  (length / t.chordLength).toUInt64.toNat

def chordCount (a : Arc) (t : Tolerances) : Nat :=
  min (a.chordsForDeviation t) (a.chordsForLength t)

/-- The end of the `i`th of `n` chords. The start counts as the end of chord zero. -/
def chordEnd (a : Arc) (n i : Nat) : Local :=
  let angle := a.startAngle + a.sweep / Float.ofNat n * Float.ofNat i
  { primary := a.center.primary + a.radius * angle.cos
    secondary := a.center.secondary + a.radius * angle.sin
    depth := a.start.depth + a.rise / Float.ofNat n * Float.ofNat i }

end Arc

/-- Adds the points for the indices from `i` on, `n` of them, up to the first that is not a
number. -/
def pushEach (m : Machine) (waypoint : Nat → Waypoint) : Nat → Nat → Outcome Fault
  | 0, _ => .done m
  | n + 1, i =>
    (m.push (waypoint i)).andThen fun m => pushEach m waypoint n (i + 1)

def arcOf (m : Machine) (finish center : Point) (rotations : Float) : Arc where
  start := m.plane.toLocal m.position.point
  finish := m.plane.toLocal finish
  center := m.plane.toLocal center
  clockwise := m.modal.motion == .clockwise
  rotations := rotations

def checkArc (m : Machine) (finish center : Point) (rotations : Float) : Except Fault Unit :=
  if finish.hasNaN || center.hasNaN then .error .notANumber
  else if rotations.isNaN || rotations < 1 then .error (.tooFewRotations rotations)
  else (m.arcOf finish center rotations).check

def chordTo (m : Machine) (l : Local) : Waypoint where
  modal := { m.modal with motion := .linear }
  point := m.plane.toMachine l

/-- Travels an arc in linear chords and ends exactly at its end point. The motion setting stays. -/
def arc (m : Machine) (finish center : Point) (rotations : Float) : Outcome Fault :=
  match m.checkArc finish center rotations with
  | .error e => .stopped m e
  | .ok () =>
    let a := m.arcOf finish center rotations
    let n := a.chordCount m.tolerances
    let chords := if n = 0 then 0 else n + 1
    (m.pushEach (fun i => m.chordTo (a.chordEnd n i)) chords 0).andThen fun after =>
      after.push (m.chordTo a.finish)

end Toolpath.Machine
