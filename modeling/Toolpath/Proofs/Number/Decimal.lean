import Toolpath.Number.Reading
import Toolpath.Proofs.Number.Grid

/-!
# Decimals as doubles

The double that is read from a decimal is the decimal rounded, whether it is computed from exact
factors or from the digits at any length. It is always a number.
-/

namespace Toolpath.Number

open Float.Model
open Float.Model.UnpackedFloat

section Factors

variable {m : Nat}

theorem Faithful.exact {r : ℝ} {x y : Float} (h : Faithful r x.toModel.unpack)
    (hy : y.isFinite = true) (hr : value y = r) : x.isFinite = true ∧ value x = r := by
  have hle := h.le hy hr.ge
  have hge := h.ge hy hr.le
  have hx := isFinite_of_le hy hy hge hle
  refine ⟨hx, ?_⟩
  rw [← hr]
  exact le_antisymm (value_le_of_le hle hx hy) (value_le_of_le hge hy hx)

theorem exists_whole (hm : m < 2 ^ 53) : ∃ y : Float, y.isFinite = true ∧ value y = m := by
  rcases Nat.eq_zero_or_pos m with rfl | hpos
  · exact ⟨0, by decide, by simp⟩
  · have hlog : m.log2 < 53 := (Nat.log2_lt hpos.ne').2 hm
    -- The mantissa is shifted until it has 53 bits.
    obtain ⟨k, hk⟩ : ∃ k : Nat, m.log2 + k = 52 := ⟨52 - m.log2, by omega⟩
    have hlong : 2 ^ 52 ≤ m <<< k := two_pow_le_shiftLeft hpos hk.ge
    have hshort : m <<< k < 2 ^ 53 := by
      rw [Nat.shiftLeft_eq]
      calc m * 2 ^ k < 2 ^ (m.log2 + 1) * 2 ^ k :=
            Nat.mul_lt_mul_of_pos_right Nat.lt_log2_self (by positivity)
        _ = 2 ^ 53 := by rw [← pow_add]; congr 1; omega
    obtain ⟨u, hu⟩ : ∃ u, u = UnpackedFloat.finite .positive (m <<< k) (-k) (by omega) := ⟨_, rfl⟩
    have hcanonical : Canonical u := by
      rw [hu]
      exact ⟨hshort, by omega, by omega, .inr hlong⟩
    have hunpack : (Float.ofModel (.pack u)).toModel.unpack = u := repack_eq hcanonical
    refine ⟨.ofModel (.pack u), ?_, ?_⟩
    · rw [isFinite_eq, hunpack, hu]
      rfl
    · have hvalue := shiftLeft_zpow m k 0
      rw [zero_sub, zpow_zero, mul_one] at hvalue
      rw [value, hunpack, hu, partsValue_finite]
      exact hvalue

theorem value_toFloat (hm : m < 2 ^ 53) :
    m.toUInt64.toFloat.isFinite = true ∧ value m.toUInt64.toFloat = m := by
  have hcast : m.toUInt64.toNat = m := UInt64.toNat_ofNat_of_lt' (hm.trans (by decide))
  have hunpack : m.toUInt64.toFloat.toModel.unpack =
      repack (normalize Format.binary64 m 0 .positive) := by
    change repack (normalize Format.binary64 m.toUInt64.toNat 0 .positive) = _
    rw [hcast]
  have hfaithful : Faithful m m.toUInt64.toFloat.toModel.unpack := by
    have h := normalize_cases faithful_repack faithful_round m 0 .positive
    rwa [zpow_zero, mul_one, Int.cast_natCast, ← hunpack] at h
  obtain ⟨y, hy, hvalue⟩ := exists_whole hm
  exact hfaithful.exact hy hvalue

theorem ticks_power : ∀ e : Fin 23,
    (Float.exactlyRepresentablePowersOfTen[e.1]).isFinite = true ∧
      ticks (Float.exactlyRepresentablePowersOfTen[e.1]) = 10 ^ e.1 * perOne := by
  decide +kernel

theorem value_power {e : Nat} (he : e < Float.exactlyRepresentablePowersOfTen.size) :
    Float.exactlyRepresentablePowersOfTen[e].isFinite = true ∧
      value Float.exactlyRepresentablePowersOfTen[e] = 10 ^ e := by
  obtain ⟨hfin, hticks⟩ := ticks_power ⟨e, he⟩
  refine ⟨hfin, ?_⟩
  rw [value_eq_of_ticks hticks]
  push_cast
  rfl

end Factors

section Digits

variable {m : Nat} {e : Int}

theorem pow_two_le_pow_ten {e : Int} (he : 0 ≤ e) : (2 : ℝ) ^ e ≤ 10 ^ e :=
  zpow_le_zpow_left₀ he two_pos.le (by norm_num)

theorem overflow_le_scaled (hm : 0 < m) (he : 2048 < e) : overflow ≤ m * 10 ^ e := by
  have hone : (1 : ℝ) ≤ m := by exact_mod_cast hm
  calc overflow ≤ 2 ^ e := two_zpow_le (by omega)
    _ ≤ 10 ^ e := pow_two_le_pow_ten (by omega)
    _ ≤ m * 10 ^ e := le_mul_of_one_le_left (by positivity) hone

theorem scaled_le_underflow (he : e < -(2048 + m.log2)) : m * (10 : ℝ) ^ e ≤ underflow := by
  have hmantissa : (m : ℝ) ≤ 2 ^ ((m.log2 : Int) + 1) := by
    exact_mod_cast (Nat.lt_log2_self (n := m)).le
  have hpower : (10 : ℝ) ^ e ≤ 2 ^ e := by
    have h := inv_anti₀ (two_zpow_pos (-e)) (pow_two_le_pow_ten (e := -e) (by omega))
    rwa [zpow_neg, zpow_neg, inv_inv, inv_inv] at h
  calc (m : ℝ) * 10 ^ e ≤ 2 ^ ((m.log2 : Int) + 1) * 2 ^ e :=
        mul_le_mul hmantissa hpower (by positivity) (by positivity)
    _ = 2 ^ ((m.log2 : Int) + 1 + e) := (zpow_add₀ two_ne_zero _ _).symm
    _ ≤ underflow := two_zpow_le (by omega)

theorem rounds_underflow {r : ℝ} (h0 : 0 ≤ r) (h : r ≤ underflow) :
    Rounds r (repack (.zero .positive)) := by
  rw [repack_eq (u := .zero .positive) trivial]
  refine .near rfl ?_ fun _ => le_rfl
  have hvalue : partsValue (.zero .positive) = 0 := rfl
  have hroundoff := mul_nonneg roundoff_pos.le h0
  rw [hvalue, zero_sub, abs_neg, abs_of_nonneg h0]
  linarith

theorem rounds_scaledUp (hm : 0 < m) (n : Nat) :
    Rounds (m * 10 ^ n) (repack (roundWithAccuracy Format.binary64 .positive
      (m <<< 53 * 10 ^ n) (-53) .exact)) := by
  have hvalue : ((m <<< 53 * 10 ^ n : Nat) : ℝ) * 2 ^ (-53 : Int) = m * 10 ^ n := by
    have h := shiftLeft_zpow m 53 0
    rw [zpow_zero, mul_one] at h
    push_cast at h ⊢
    rw [mul_right_comm]
    exact congrArg (· * (10 : ℝ) ^ n) h
  have hpos : (0 : ℝ) < m * 10 ^ n := mul_pos (Nat.cast_pos.2 hm) (by positivity)
  have hlong : 2 ^ 52 ≤ m <<< 53 * 10 ^ n :=
    (two_pow_le_shiftLeft hm (by omega)).trans
      (Nat.le_mul_of_pos_right _ (Nat.pow_pos (by decide)))
  refine rounds_roundWithAccuracy (s := .positive) _ hpos hvalue.le ?_ (.inl hlong)
  rw [← hvalue]
  exact mul_le_mul_of_nonneg_right (by linarith) (two_zpow_pos _).le

theorem rounds_scaledDown (hm : 0 < m) (n : Nat) (hn : 0 < 10 ^ n) :
    Rounds (m / 10 ^ n) (repack (div Format.binary64 (.finite .positive m 0 hm)
      (.finite .positive (10 ^ n) 0 hn))) := by
  have hm' : partsValue (.finite .positive m 0 hm) = m := by simp [partsValue_finite, signed]
  have hn' : partsValue (.finite .positive (10 ^ n) 0 hn) = 10 ^ n := by
    simp [partsValue_finite, signed]
  have h := rounds_div (u := .finite .positive m 0 hm) (v := .finite .positive (10 ^ n) 0 hn)
    rfl rfl (by rw [hn']; positivity)
  rwa [hm', hn'] at h

theorem rounds_scientific (m : Nat) (e : Int) :
    Rounds (m * 10 ^ e) (repack (UnpackedFloat.ofScientific Format.binary64 m e)) := by
  unfold UnpackedFloat.ofScientific
  split_ifs with hzero hhigh hlow hup
  · subst hzero
    rw [Nat.cast_zero, zero_mul]
    exact rounds_zero .positive
  · rw [repack_eq (u := .infinity .positive) trivial]
    exact .above (overflow_le_scaled (Nat.pos_of_ne_zero hzero) hhigh)
  · exact rounds_underflow (by positivity) (scaled_le_underflow hlow)
  · obtain ⟨n, rfl⟩ := Int.eq_ofNat_of_zero_le hup
    exact rounds_scaledUp (Nat.pos_of_ne_zero hzero) n
  · obtain ⟨n, hn⟩ := Int.eq_ofNat_of_zero_le (show 0 ≤ -e by omega)
    obtain rfl : e = -n := by omega
    rw [zpow_neg, zpow_natCast, ← div_eq_mul_inv]
    simp only [neg_neg, Int.toNat_natCast]
    exact rounds_scaledDown (Nat.pos_of_ne_zero hzero) n _

end Digits

section Reading

/-- A short decimal is computed from its digits and a power of ten, which are both exact. -/
theorem rounds_short {m n : Nat} (down : Bool) (hm : m < 2 ^ 53) (hn : n ≤ 22) :
    Rounds (if down then m / 10 ^ n else m * 10 ^ n)
      (Float.ofScientific m down n).toModel.unpack := by
  obtain ⟨hfm, hvm⟩ := value_toFloat hm
  have hsize : n < Float.exactlyRepresentablePowersOfTen.size := Nat.lt_succ_of_le hn
  obtain ⟨hfn, hvn⟩ := value_power hsize
  rw [Float.ofScientific, dif_pos ⟨hm, hn⟩]
  rw [← hvm, ← hvn]
  cases down with
  | true => exact value_div hfm hfn (by rw [hvn]; positivity)
  | false => exact value_mul hfm hfn

theorem rounds_ofScientific (m : Nat) (e : Int) :
    Rounds (m * 10 ^ e) (Float.ofScientific m (e < 0) e.natAbs).toModel.unpack := by
  by_cases hshort : m < 2 ^ 53 ∧ e.natAbs ≤ 22
  · have h := rounds_short (decide (e < 0)) hshort.1 hshort.2
    obtain ⟨n, rfl | rfl⟩ := e.eq_nat_or_neg
    · have hsign : ¬ (n : Int) < 0 := by omega
      rw [decide_eq_false hsign] at h ⊢
      simpa using h
    · rw [Int.natAbs_neg, Int.natAbs_natCast] at h ⊢
      rcases Nat.eq_zero_or_pos n with rfl | hn
      · simpa using h
      · have hsign : -(n : Int) < 0 := by omega
        rw [decide_eq_true hsign] at h ⊢
        rwa [zpow_neg, zpow_natCast, ← div_eq_mul_inv]
  · have hexponent :
        (if decide (e < 0) = true then Int.negOfNat e.natAbs else Int.ofNat e.natAbs) = e := by
      rcases lt_or_ge e 0 with hneg | hpos
      · have habs := Int.ofNat_natAbs_of_nonpos hneg.le
        rw [decide_eq_true hneg, if_pos rfl, Int.negOfNat_eq]
        change -(e.natAbs : Int) = e
        rw [habs, neg_neg]
      · rw [decide_eq_false hpos.not_gt, if_neg Bool.false_ne_true]
        exact Int.natAbs_of_nonneg hpos
    rw [Float.ofScientific, dif_neg hshort]
    dsimp only
    rw [hexponent]
    exact rounds_scientific m e

/-- A decimal is read as the double that its digits are rounded to, with its sign. -/
theorem Decimal.rounds_digits (d : Decimal) : ∃ x : Float,
    Rounds (d.digits * 10 ^ d.exponent) x.toModel.unpack ∧
      d.value = if d.negative then -x else x :=
  ⟨_, rounds_ofScientific d.digits d.exponent, rfl⟩

theorem isNaN_neg (x : Float) : (-x).isNaN = x.isNaN := by
  rw [isNaN_eq, isNaN_eq, unpack_neg]
  cases x.toModel.unpack <;> rfl

theorem Decimal.isNaN_value (d : Decimal) : d.value.isNaN = false := by
  obtain ⟨x, hx, hvalue⟩ := d.rounds_digits
  rw [hvalue]
  cases d.negative with
  | true => exact (isNaN_neg x).trans hx.isNaN
  | false => exact hx.isNaN

end Reading

end Toolpath.Number
