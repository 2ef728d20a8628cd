import Toolpath.Geometry.Point
import Toolpath.Proofs.Number.Order

/-!
# Places in the XY plane

Being at the same place is symmetric, and a point without NaN is where it is.
-/

namespace Toolpath.Geometry.Point

open Number (beq_iff)

variable {a b : Point}

theorem hasNaN_eq_false : a.hasNaN = false ↔
    a.x.isNaN = false ∧ a.y.isNaN = false ∧ a.z.isNaN = false := by
  simp [hasNaN, and_assoc]

theorem sameXY_iff : a.sameXY b = true ↔ (a.x == b.x) = true ∧ (a.y == b.y) = true := by
  simp [sameXY]

theorem sameXY_refl (h : a.hasNaN = false) : a.sameXY a = true := by
  obtain ⟨hx, hy, -⟩ := hasNaN_eq_false.1 h
  exact sameXY_iff.2 ⟨Number.beq_self hx, Number.beq_self hy⟩

theorem sameXY_symm (h : a.sameXY b = true) : b.sameXY a = true := by
  simp only [sameXY_iff, beq_iff] at h ⊢
  grind

end Toolpath.Geometry.Point
