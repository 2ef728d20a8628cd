import Toolpath.Proofs.Machine.Chords

/-!
# Arcs and planes

An arc looks at the machine axes only through the axes of its plane. Turned so that the plane
becomes the XY plane, it is the same arc: it is refused for the same fault or stops at the same
chord, and its waypoints are the turned ones.
-/

namespace Toolpath

open Toolpath.Geometry (Point Plane Local)
open Toolpath.Path (Waypoint)

namespace Geometry

/-- The point that lies to the XY plane as `p` lies to this one. -/
def Plane.flatten (plane : Plane) (p : Point) : Point := Plane.xy.toMachine (plane.toLocal p)

/-- The point that lies to this plane as `p` lies to the XY plane. -/
def Plane.raise (plane : Plane) (p : Point) : Point := plane.toMachine (Plane.xy.toLocal p)

variable (plane : Plane)

@[simp] theorem Plane.toLocal_flatten (p : Point) :
    Plane.xy.toLocal (plane.flatten p) = plane.toLocal p :=
  Plane.to_local_to_machine .xy _

@[simp] theorem Plane.raise_toMachine (l : Local) :
    plane.raise (Plane.xy.toMachine l) = plane.toMachine l := by
  unfold Plane.raise
  rw [Plane.to_local_to_machine]

theorem Plane.hasNaN_toMachine_toLocal (other : Plane) (p : Point) :
    (other.toMachine (plane.toLocal p)).hasNaN = p.hasNaN := by
  simp only [Plane.toMachine, Plane.localAlong, Plane.toLocal, Point.hasNaN]
  cases plane <;> cases other <;> simp [Plane.axes, Point.along] <;> grind

theorem Plane.hasNaN_raise (p : Point) : (plane.raise p).hasNaN = p.hasNaN :=
  Plane.xy.hasNaN_toMachine_toLocal plane p

theorem Plane.hasNaN_flatten (p : Point) : (plane.flatten p).hasNaN = p.hasNaN :=
  plane.hasNaN_toMachine_toLocal .xy p

end Geometry

namespace Machine

/-- The same machine with the XY plane for its working plane, at the flattened place. The way there
stays. -/
def laidFlat (m : Machine) : Machine :=
  { m with
    plane := .xy
    path := match m.path.back? with
      | none => #[]
      | some w => m.path.pop.push (w.withPoint (m.plane.flatten w.point)) }

def raise (m : Machine) (w : Waypoint) : Waypoint := w.withPoint (m.plane.raise w.point)

variable (m : Machine) (finish center : Point) (rotations : Float)

theorem position_laidFlat : m.laidFlat.position.point = m.plane.flatten m.position.point := by
  unfold laidFlat Machine.position
  cases h : m.path.back? with
  | none => cases m.plane <;> rfl
  | some w => simp [Waypoint.withPoint]

theorem arcOf_laidFlat :
    m.laidFlat.arcOf (m.plane.flatten finish) (m.plane.flatten center) rotations =
      m.arcOf finish center rotations := by
  unfold arcOf
  rw [position_laidFlat]
  simp only [laidFlat, Plane.toLocal_flatten]

theorem checkArc_laidFlat :
    m.laidFlat.checkArc (m.plane.flatten finish) (m.plane.flatten center) rotations =
      m.checkArc finish center rotations := by
  unfold checkArc
  rw [arcOf_laidFlat, Plane.hasNaN_flatten, Plane.hasNaN_flatten]

theorem raise_chordTo_laidFlat (l : Local) : m.raise (m.laidFlat.chordTo l) = m.chordTo l := by
  unfold raise chordTo Waypoint.withPoint
  simp only [laidFlat, Plane.raise_toMachine]

theorem map_raise_waypointsOf (a : Arc) :
    (m.laidFlat.waypointsOf a).map m.raise = m.waypointsOf a := by
  unfold waypointsOf chordEnds
  simp only [List.map_append, List.map_map, List.map_cons, List.map_nil,
    raise_chordTo_laidFlat, Function.comp_def]
  rfl

theorem isReal_raise : isReal ∘ m.raise = isReal := by
  funext w
  simp [isReal, raise, Waypoint.withPoint, Plane.hasNaN_raise]

theorem travel_map_raise (n : Machine) (ws : List Waypoint) :
    (m.travel (ws.map m.raise)).fault = (n.travel ws).fault ∧
      ∃ vs : List Waypoint, (n.travel ws).machine = n.withPath (n.path ++ vs) ∧
        (m.travel (ws.map m.raise)).machine = m.withPath (m.path ++ vs.map m.raise) := by
  unfold travel
  rw [List.all_map, List.takeWhile_map, isReal_raise]
  exact ⟨rfl, ws.takeWhile isReal, rfl, rfl⟩

/-- An arc in any plane ends as it does on the machine laid flat, and its waypoints are those of the
flat machine, raised into the plane. -/
theorem arc_in_any_plane :
    (m.arc finish center rotations).fault =
        (m.laidFlat.arc (m.plane.flatten finish) (m.plane.flatten center) rotations).fault ∧
      ∃ ws : List Waypoint,
        (m.laidFlat.arc (m.plane.flatten finish) (m.plane.flatten center) rotations).machine =
            m.laidFlat.withPath (m.laidFlat.path ++ ws) ∧
          (m.arc finish center rotations).machine = m.withPath (m.path ++ ws.map m.raise) := by
  have hcheck := checkArc_laidFlat m finish center rotations
  have harc := arcOf_laidFlat m finish center rotations
  cases h : m.checkArc finish center rotations with
  | error e =>
    rw [h] at hcheck
    rw [arc_of_refused h, arc_of_refused hcheck]
    exact ⟨rfl, [], by simp [Outcome.stopped, withPath], by simp [Outcome.stopped, withPath]⟩
  | ok u =>
    rw [h] at hcheck
    rw [arc_of_checked h, arc_of_checked hcheck, harc, ← map_raise_waypointsOf]
    exact travel_map_raise m m.laidFlat _

end Machine

end Toolpath
