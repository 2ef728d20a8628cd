import Toolpath.Number.Arithmetic

/-!
# Points

Positions and displacements in millimetres.
-/

namespace Toolpath.Geometry

structure Point where
  x : Float
  y : Float
  z : Float

namespace Point

def origin : Point := ⟨0, 0, 0⟩

def sub (a b : Point) : Point := ⟨a.x - b.x, a.y - b.y, a.z - b.z⟩

def norm (a : Point) : Float := (a.x * a.x + a.y * a.y + a.z * a.z).sqrt

def distance (a b : Point) : Float := (a.sub b).norm

def lateralDistance (a b : Point) : Float := Number.hypotenuse (a.x - b.x) (a.y - b.y)

/-- Equal X and Y as numbers: zeros of either sign are the same. -/
def sameXY (a b : Point) : Bool := a.x == b.x && a.y == b.y

def hasNaN (a : Point) : Bool := a.x.isNaN || a.y.isNaN || a.z.isNaN

def scale (a : Point) (factor : Float) : Point := ⟨a.x * factor, a.y * factor, a.z * factor⟩

def swapXY (a : Point) : Point := ⟨a.y, a.x, a.z⟩

end Point

end Toolpath.Geometry
