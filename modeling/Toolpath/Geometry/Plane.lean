import Toolpath.Geometry.Point

/-!
# Working planes

Arcs are drawn in one of the three coordinate planes. Each plane turns the machine axes into two
axes of the plane and the depth across it, keeping their cyclic order.
-/

namespace Toolpath.Geometry

inductive Plane where
  | xy
  | xz
  | yz
  deriving DecidableEq, Repr

inductive Axis where
  | x
  | y
  | z
  deriving DecidableEq, Repr

structure Local where
  primary : Float
  secondary : Float
  depth : Float

def Point.along (p : Point) : Axis → Float
  | .x => p.x
  | .y => p.y
  | .z => p.z

namespace Plane

/-- The machine axes that are the primary, the secondary and the depth axis. -/
def axes : Plane → Axis × Axis × Axis
  | .xy => (.x, .y, .z)
  | .xz => (.z, .x, .y)
  | .yz => (.y, .z, .x)

def toLocal (plane : Plane) (p : Point) : Local :=
  let (primary, secondary, depth) := plane.axes
  ⟨p.along primary, p.along secondary, p.along depth⟩

/-- The coordinate of `l` along a machine axis. -/
def localAlong (plane : Plane) (l : Local) (axis : Axis) : Float :=
  let (primary, secondary, _) := plane.axes
  if axis = primary then l.primary else if axis = secondary then l.secondary else l.depth

def toMachine (plane : Plane) (l : Local) : Point :=
  ⟨plane.localAlong l .x, plane.localAlong l .y, plane.localAlong l .z⟩

theorem to_machine_to_local (plane : Plane) (p : Point) : plane.toMachine (plane.toLocal p) = p := by
  cases plane <;> rfl

theorem to_local_to_machine (plane : Plane) (l : Local) : plane.toLocal (plane.toMachine l) = l := by
  cases plane <;> rfl

end Plane

end Toolpath.Geometry
