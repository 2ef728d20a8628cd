import Toolpath.Proofs.Number.Grid
import Toolpath.Number.Arithmetic

/-!
# Truncation

A number is cut to the whole number at or below it, and a negative one to zero.
-/

namespace Toolpath.Number

open Float.Model
open Float.Model.UnpackedFloat

section Parts

variable {s : Sign} {m : Nat} {e : Int} {u : UnpackedFloat}

theorem floor_mul_zpow (m : Nat) (e : Int) :
    ⌊(m : ℝ) * 2 ^ e⌋₊ = m * 2 ^ e.toNat / 2 ^ (-e).toNat := by
  rcases le_total 0 e with h | h
  · obtain ⟨k, rfl⟩ := Int.eq_ofNat_of_zero_le h
    have hcast : (m : ℝ) * 2 ^ (k : ℤ) = (m * 2 ^ k : ℕ) := by
      rw [zpow_natCast]
      push_cast
      rfl
    rw [hcast, Nat.floor_natCast]
    simp
  · obtain ⟨k, hk⟩ := Int.eq_ofNat_of_zero_le (Int.neg_nonneg.2 h)
    obtain rfl : e = -k := by omega
    have hcast : (m : ℝ) * 2 ^ (-k : ℤ) = m / (2 ^ k : ℕ) := by
      rw [zpow_neg, zpow_natCast, ← div_eq_mul_inv]
      push_cast
      rfl
    rw [hcast, Nat.floor_div_eq_div]
    simp

theorem roundToInt_eq (s : Sign) (m : Nat) (e : Int) :
    roundToInt s m e = s.apply ⌊(m : ℝ) * 2 ^ e⌋₊ := by
  have hshift : (0 - (e - e.toNat)).toNat = (-e).toNat := by omega
  rw [floor_mul_zpow]
  simp only [roundToInt, decreaseExponent, shiftToExponent, Int.sub_zero, hshift,
    mantissa_shiftRight, mantissa_ofMantissaAndAccuracy, Nat.shiftLeft_eq]

theorem toNat_toInt (lo hi : Int) (h : u.isFinite = true) :
    (u.toInt lo hi).toNat = ⌊partsValue u⌋₊ := by
  cases u with
  | notANumber => cases h
  | infinity s => cases h
  | zero s => simp [toInt, partsValue]
  | finite s m e hm =>
    have hmag : (0 : ℝ) ≤ m * 2 ^ e := mul_nonneg (Nat.cast_nonneg m) (two_zpow_pos e).le
    rw [toInt, roundToInt_eq, partsValue_finite]
    cases s with
    | positive => simp [Sign.apply, signed]
    | negative =>
      rw [signed, Nat.floor_of_nonpos (neg_nonpos.2 hmag)]
      simp [Sign.apply]

theorem whole_parts_iff (hm : 0 < m) :
    (0 ≤ e ∨ m % Nat.pow 2 (-e).toNat = 0) ↔ ∃ n : ℤ, partsValue (.finite s m e hm) = n := by
  obtain ⟨k, hk | hk⟩ := Int.eq_nat_or_neg e
  · subst hk
    refine iff_of_true (.inl (Int.natCast_nonneg k)) ⟨s.apply (m * 2 ^ k : ℕ), ?_⟩
    rw [partsValue_finite, cast_apply, zpow_natCast]
    push_cast
    rfl
  subst hk
  have hvalue : partsValue (.finite s m (-k) hm) = signed s (m / (2 ^ k : ℕ)) := by
    rw [partsValue_finite, zpow_neg, zpow_natCast, ← div_eq_mul_inv]
    push_cast
    rfl
  have hdvd : (0 ≤ (-k : ℤ) ∨ m % Nat.pow 2 (- -(k : ℤ)).toNat = 0) ↔ 2 ^ k ∣ m := by
    rw [neg_neg, Int.toNat_natCast, Nat.dvd_iff_mod_eq_zero]
    refine ⟨?_, .inr⟩
    rintro (h | h)
    · obtain rfl : k = 0 := by omega
      exact Nat.mod_one m
    · exact h
  have hpow : ((2 ^ k : ℕ) : ℝ) ≠ 0 := Nat.cast_ne_zero.2 (Nat.two_pow_pos k).ne'
  rw [hdvd, hvalue]
  constructor
  · rintro ⟨q, rfl⟩
    refine ⟨s.apply q, ?_⟩
    rw [Nat.cast_mul, mul_div_cancel_left₀ _ hpow, cast_apply]
    rfl
  · rintro ⟨n, hn⟩
    have habs : (m : ℝ) / (2 ^ k : ℕ) = n.natAbs := by
      rw [← abs_of_nonneg (show (0 : ℝ) ≤ m / (2 ^ k : ℕ) by positivity), ← abs_signed s, hn,
        Nat.cast_natAbs, Int.cast_abs]
    rw [div_eq_iff hpow] at habs
    exact ⟨n.natAbs, by rw [mul_comm]; exact_mod_cast habs⟩

end Parts

variable {x : Float} (hx : x.isFinite = true)
include hx

theorem isWhole_iff : isWhole x = true ↔ ∃ n : ℤ, value x = n := by
  rw [isFinite_eq] at hx
  unfold isWhole value
  cases hu : x.toModel.unpack with
  | notANumber => rw [hu] at hx; cases hx
  | infinity s => rw [hu] at hx; cases hx
  | zero s => exact iff_of_true rfl ⟨0, by simp [partsValue]⟩
  | finite s m e hm => rw [← whole_parts_iff hm, decide_eq_true_iff]

theorem toNat_toUInt32 (h : value x < 2 ^ 32) : x.toUInt32.toNat = ⌊value x⌋₊ := by
  have hfloor := toNat_toInt 0 (UInt32.size - 1 : Int) hx
  have hsmall : ⌊value x⌋₊ < UInt32.size := by
    rw [Nat.floor_lt' (by decide)]
    exact_mod_cast h
  change (UInt32.ofNatClamp (x.toModel.unpack.toInt 0 (UInt32.size - 1 : Int)).toNat).toNat = _
  rw [hfloor, UInt32.ofNatClamp]
  exact dif_pos hsmall ▸ rfl

/-- Within 64 bits, where what is larger is cut to the largest. -/
theorem toNat_toUInt64_eq_min : x.toUInt64.toNat = min ⌊value x⌋₊ (UInt64.size - 1) := by
  have hfloor := toNat_toInt 0 (UInt64.size - 1 : Int) hx
  change (UInt64.ofNatClamp (x.toModel.unpack.toInt 0 (UInt64.size - 1 : Int)).toNat).toNat = _
  rw [hfloor, UInt64.ofNatClamp]
  by_cases hsmall : ⌊value x⌋₊ < UInt64.size
  · rw [min_eq_left (Nat.le_sub_one_of_lt hsmall)]
    exact dif_pos hsmall ▸ rfl
  · rw [min_eq_right (by omega)]
    exact dif_neg hsmall ▸ rfl

theorem toNat_toUInt64 (h : value x < 2 ^ 64) : x.toUInt64.toNat = ⌊value x⌋₊ := by
  have hsmall : ⌊value x⌋₊ < UInt64.size := by
    rw [Nat.floor_lt' (by decide)]
    exact_mod_cast h
  rw [toNat_toUInt64_eq_min hx, min_eq_left (by omega)]

end Toolpath.Number
