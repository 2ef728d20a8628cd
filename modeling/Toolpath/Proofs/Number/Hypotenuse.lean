import Toolpath.Proofs.Number.Sign

/-!
# The hypotenuse

The hypotenuse of finite sides is the rounded root of the exact sum of their squares. It is finite
only where both sides are, and a number where both sides are.
-/

namespace Toolpath.Number

open Float.Model
open Float.Model.UnpackedFloat

/-- Two mantissas at their common exponent give the exact sum of squares. -/
theorem aligned_squares (a b : Nat) {e f g : Int} (he : g ≤ e) (hf : g ≤ f) :
    ((a <<< (e - g).toNat * a <<< (e - g).toNat +
      b <<< (f - g).toNat * b <<< (f - g).toNat : Nat) : ℝ) * 2 ^ (2 * g) =
      (a * 2 ^ e) ^ 2 + (b * 2 ^ f) ^ 2 := by
  have hshift {n : Nat} {d : Int} (hd : g ≤ d) :
      ((n <<< (d - g).toNat : Nat) : ℝ) * 2 ^ g = n * 2 ^ d := by
    have h := shiftLeft_zpow n (d - g).toNat d
    rwa [show d - ((d - g).toNat : Int) = g by omega] at h
  rw [← hshift he, ← hshift hf, two_mul, zpow_add₀ two_ne_zero]
  push_cast
  ring

variable {x y : Float}

theorem isFinite_of_unpack {u : UnpackedFloat} (h : x.toModel.unpack = u)
    (hu : u.isFinite = true) : x.isFinite = true := by
  rw [isFinite_eq, h, hu]

theorem finite_of_hypotenuse (h : (hypotenuse x y).isFinite = true) :
    x.isFinite = true ∧ y.isFinite = true := by
  unfold hypotenuse at h
  split at h
  · exact absurd h (by decide)
  · exact absurd h (by decide)
  · exact absurd h (by decide)
  · exact absurd h (by decide)
  · rename_i hx _ _
    exact ⟨isFinite_of_unpack hx rfl, by rwa [isFinite_abs] at h⟩
  · rename_i hy _ _ _
    exact ⟨by rwa [isFinite_abs] at h, isFinite_of_unpack hy rfl⟩
  · rename_i hx hy
    exact ⟨isFinite_of_unpack hx rfl, isFinite_of_unpack hy rfl⟩

theorem value_hypotenuse (hx : x.isFinite = true) (hy : y.isFinite = true) :
    Rounds (√(value x ^ 2 + value y ^ 2)) (hypotenuse x y).toModel.unpack := by
  have habs {z : Float} (hz : z.isFinite = true) : Rounds |value z| z.abs.toModel.unpack := by
    rw [← value_abs]
    exact rounds_self (by rwa [← isFinite_eq, isFinite_abs])
  have hsquare (s : Sign) (r : ℝ) : signed s r ^ 2 = r ^ 2 := by
    rw [← sq_abs, abs_signed, sq_abs]
  unfold hypotenuse
  split
  · rename_i hu
    rw [isFinite_eq, hu] at hx
    cases hx
  · rename_i hu _
    rw [isFinite_eq, hu] at hy
    cases hy
  · rename_i hu _
    rw [isFinite_eq, hu] at hx
    cases hx
  · rename_i hu _ _
    rw [isFinite_eq, hu] at hy
    cases hy
  · rename_i hu _ _
    have hzero : value x = 0 := by
      rw [value, hu]
      rfl
    rw [hzero, zero_pow two_ne_zero, zero_add, Real.sqrt_sq_eq_abs]
    exact habs hy
  · rename_i hu _ _ _
    have hzero : value y = 0 := by
      rw [value, hu]
      rfl
    rw [hzero, zero_pow two_ne_zero, add_zero, Real.sqrt_sq_eq_abs]
    exact habs hx
  · rename_i s a e ha t b f hb hu hv
    have hpos : 0 < a <<< (e - min e f).toNat := by
      rw [Nat.shiftLeft_eq]
      exact Nat.mul_pos ha (Nat.two_pow_pos _)
    rw [value, value, hu, hv, partsValue_finite, partsValue_finite, hsquare, hsquare,
      ← aligned_squares a b (min_le_left e f) (min_le_right e f)]
    exact rounds_sqrtCore (Nat.add_pos_left (Nat.mul_pos hpos hpos) _) _

theorem hypotenuse_bounded {k : ℕ} (hk : k + 1 < 1023) (hx : x.isFinite = true ∧ |value x| ≤ 2 ^ k)
    (hy : y.isFinite = true ∧ |value y| ≤ 2 ^ k) :
    (hypotenuse x y).isFinite = true ∧ |value (hypotenuse x y)| ≤ 2 ^ (k + 2) := by
  refine (value_hypotenuse hx.1 hy.1).bounded hk ?_
  have hsquare {r : ℝ} (hr : |r| ≤ 2 ^ k) : r ^ 2 ≤ (2 ^ k) ^ 2 :=
    sq_le_sq' (abs_le.1 hr).1 (abs_le.1 hr).2
  rw [abs_of_nonneg (Real.sqrt_nonneg _), Real.sqrt_le_iff]
  refine ⟨by positivity, ?_⟩
  calc value x ^ 2 + value y ^ 2 ≤ (2 ^ k) ^ 2 + (2 ^ k) ^ 2 :=
        add_le_add (hsquare hx.2) (hsquare hy.2)
    _ ≤ (2 * 2 ^ k) ^ 2 := by linarith [sq_nonneg ((2 : ℝ) ^ k), mul_pow (2 : ℝ) (2 ^ k) 2]
    _ = (2 ^ (k + 1)) ^ 2 := by rw [pow_succ' (2 : ℝ) k]

theorem isNaN_hypotenuse (hx : x.isNaN = false) (hy : y.isNaN = false) :
    (hypotenuse x y).isNaN = false := by
  by_cases hfin : x.isFinite = true ∧ y.isFinite = true
  · exact (value_hypotenuse hfin.1 hfin.2).isNaN
  · unfold hypotenuse
    split
    · decide
    · decide
    · rename_i hu _
      rw [isNaN_eq, hu] at hx
      cases hx
    · rename_i hu _ _
      rw [isNaN_eq, hu] at hy
      cases hy
    · rwa [isNaN_abs]
    · rwa [isNaN_abs]
    · rename_i hu hv
      exact absurd ⟨isFinite_of_unpack hu rfl, isFinite_of_unpack hv rfl⟩ hfin

theorem hypotenuse_zeros_left (y : Float) : hypotenuse 0 y = hypotenuse (-0) y := by
  unfold hypotenuse
  rw [unpack_zero, unpack_neg_zero]
  cases y.toModel.unpack <;> rfl

theorem hypotenuse_zeros_right (x : Float) : hypotenuse x 0 = hypotenuse x (-0) := by
  unfold hypotenuse
  rw [unpack_zero, unpack_neg_zero]
  cases x.toModel.unpack <;> rfl

theorem hypotenuse_congr {x' y' : Float} (hx : x = x' ∨ (x == x') = true)
    (hy : y = y' ∨ (y == y') = true) : hypotenuse x y = hypotenuse x' y' := by
  have hleft : hypotenuse x y = hypotenuse x' y :=
    congr_of_beq (f := fun x => hypotenuse x y) (hypotenuse_zeros_left y) hx
  have hright : hypotenuse x' y = hypotenuse x' y' := congr_of_beq (hypotenuse_zeros_right x') hy
  exact hleft.trans hright

end Toolpath.Number
