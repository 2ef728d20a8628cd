import Toolpath.Proofs.Number.Value

/-!
# Rounding

A real number is rounded to a double that differs from it by at most one unit in the last place, or
overflows. The bounds come from the shifts that cut the mantissa to its length, so they also hold
for subnormal results.
-/

namespace Toolpath.Number

open Float.Model
open Float.Model.UnpackedFloat

/-- What a real number is rounded to, up to one unit in the last place. -/
inductive Rounds (r : ℝ) : UnpackedFloat → Prop
  | near {u : UnpackedFloat} (finite : u.isFinite = true)
      (error : |partsValue u - r| ≤ roundoff * |r| + underflow) (sign : 0 ≤ r → 0 ≤ partsValue u) :
      Rounds r u
  | above (h : overflow ≤ r) : Rounds r (.infinity .positive)
  | below (h : r ≤ -overflow) : Rounds r (.infinity .negative)

def signed (s : Sign) (r : ℝ) : ℝ :=
  match s with
  | .negative => -r
  | .positive => r

theorem cast_apply (s : Sign) (n : Int) : ((s.apply n : Int) : ℝ) = signed s n := by
  cases s <;> simp [Sign.apply, signed]

section Shift

theorem mantissa_shiftRight (em : ExtendedMantissa) (k : Nat) :
    (em >>> k).mantissa = em.mantissa / 2 ^ k := by
  induction k with
  | zero => simp [HShiftRight.hShiftRight, Nat.repeat]
  | succ k ih =>
    have hstep : em >>> (k + 1) = (em >>> k).shiftRightOne := rfl
    rw [hstep, ExtendedMantissa.shiftRightOne, ih, Nat.div_div_eq_div_mul, pow_succ]

theorem mantissa_ofMantissaAndAccuracy (m : Nat) (a : Accuracy) :
    (ExtendedMantissa.ofMantissaAndAccuracy m a).mantissa = m := by
  rcases a with _ | ⟨_ | _ | _⟩ <;> rfl

theorem roundedMantissa_bounds (em : ExtendedMantissa) :
    em.mantissa ≤ em.roundedMantissa ∧ em.roundedMantissa ≤ em.mantissa + 1 := by
  obtain ⟨m, r, s⟩ := em
  cases r <;> cases s <;>
    simp [ExtendedMantissa.roundedMantissa, ExtendedMantissa.accuracy, Accuracy.roundToNearestEven]
  omega

theorem shiftRight_of_dvd {m k : Nat} (h : 2 ^ k ∣ m) :
    ExtendedMantissa.ofMantissaAndAccuracy m .exact >>> k = ⟨m / 2 ^ k, false, false⟩ := by
  induction k with
  | zero => simp [ExtendedMantissa.ofMantissaAndAccuracy, HShiftRight.hShiftRight, Nat.repeat]
  | succ k ih =>
    have hstep : ExtendedMantissa.ofMantissaAndAccuracy m .exact >>> (k + 1) =
        (ExtendedMantissa.ofMantissaAndAccuracy m .exact >>> k).shiftRightOne := rfl
    obtain ⟨n, rfl⟩ := h
    have hhalf : 2 ^ (k + 1) * n = 2 ^ k * (2 * n) := by ring
    rw [hstep, ih (Dvd.intro _ hhalf.symm), ExtendedMantissa.shiftRightOne, hhalf,
      Nat.mul_div_cancel_left _ (Nat.two_pow_pos k), ← hhalf,
      Nat.mul_div_cancel_left _ (Nat.two_pow_pos (k + 1))]
    simp

theorem roundedMantissa_lt (m k : Nat) :
    (ExtendedMantissa.ofMantissaAndAccuracy m .exact >>> k).roundedMantissa * 2 ^ k <
      m + 2 ^ k := by
  have hpos := Nat.two_pow_pos k
  by_cases h : 2 ^ k ∣ m
  · rw [shiftRight_of_dvd h]
    change m / 2 ^ k * 2 ^ k < m + 2 ^ k
    rw [Nat.div_mul_cancel h]
    omega
  · have hup := (roundedMantissa_bounds
      (ExtendedMantissa.ofMantissaAndAccuracy m .exact >>> k)).2
    rw [mantissa_shiftRight, mantissa_ofMantissaAndAccuracy] at hup
    have hcut : m / 2 ^ k * 2 ^ k < m :=
      (Nat.div_mul_le_self m _).lt_of_ne fun heq => h (Dvd.intro_left _ heq)
    calc _ ≤ (m / 2 ^ k + 1) * 2 ^ k := Nat.mul_le_mul_right _ hup
      _ < m + 2 ^ k := by
        rw [Nat.add_mul, Nat.one_mul]
        omega

theorem targetExponent_binary64 (n : Int) :
    Format.binary64.targetExponent n = max (n - 53) (-1074) := rfl

theorem shiftToTargetExponent_of_lt {m : Nat} {e : Int} (hm : m < 2 ^ 53) (he : -1074 ≤ e) :
    shiftToTargetExponent Format.binary64 m e .exact = (⟨m, false, false⟩, e) := by
  have hlog : m.log2 ≤ 52 := by
    rcases Nat.eq_zero_or_pos m with rfl | hpos
    · simp
    · have := (Nat.log2_lt (by omega)).2 hm
      omega
  have hshift : (Format.binary64.targetExponent (totalExponent m e) - e).toNat = 0 := by
    rw [targetExponent_binary64, totalExponent]
    omega
  simp [shiftToTargetExponent, shiftToExponent, hshift, HShiftRight.hShiftRight, Nat.repeat,
    ExtendedMantissa.ofMantissaAndAccuracy]

theorem shiftToTargetExponent_carry {e : Int} (he : -1074 ≤ e) :
    shiftToTargetExponent Format.binary64 (2 ^ 53) e .exact = (⟨2 ^ 52, false, false⟩, e + 1) := by
  have hshift : (Format.binary64.targetExponent (totalExponent (2 ^ 53) e) - e).toNat = 1 := by
    rw [targetExponent_binary64, totalExponent, Nat.log2_two_pow]
    omega
  unfold shiftToTargetExponent shiftToExponent
  dsimp only
  rw [hshift]
  rfl

end Shift

/-- Parts with a mantissa of at most 53 bits, or one more than the largest such. -/
def carried (s : Sign) (n : Nat) (e : Int) : UnpackedFloat :=
  if h : n = 0 then .zero s
  else if n < 2 ^ 53 then .finite s n e (Nat.pos_of_ne_zero h)
  else .finite s (2 ^ 52) (e + 1) (by decide)

section Cut

variable {m : Nat} {e t : Int} (ht : t = max (m.log2 + e - 52) (-1074)) (het : e ≤ t)
include ht het

theorem cut_lt : m / 2 ^ (t - e).toNat < 2 ^ 53 := by
  rw [Nat.div_lt_iff_lt_mul (by positivity), ← pow_add]
  exact Nat.lt_log2_self.trans_le (Nat.pow_le_pow_right two_pos (by omega))

theorem le_cut (hnormal : t ≠ -1074) : 2 ^ 52 ≤ m / 2 ^ (t - e).toNat := by
  have hm : m ≠ 0 := by
    rintro rfl
    rw [Nat.log2_zero] at ht
    omega
  rw [Nat.le_div_iff_mul_le (by positivity), ← pow_add]
  exact (Nat.pow_le_pow_right two_pos (by omega)).trans (Nat.log2_self_le hm)

/-- Rounding cuts the mantissa down to the exponent `t` and may count it up by one, but not beyond
an exact mantissa that fits. -/
theorem roundWithAccuracy_eq (s : Sign) (a : Accuracy) :
    ∃ n, m / 2 ^ (t - e).toNat ≤ n ∧ n ≤ m / 2 ^ (t - e).toNat + 1 ∧
      (a = .exact → n * 2 ^ (t - e).toNat < m + 2 ^ (t - e).toNat) ∧
      roundWithAccuracy Format.binary64 s m e a = carried s n t := by
  have htarget : Format.binary64.targetExponent (totalExponent m e) = t := by
    rw [targetExponent_binary64, totalExponent, ht]
    congr 1
    omega
  have hfirst : shiftToTargetExponent Format.binary64 m e a =
      (ExtendedMantissa.ofMantissaAndAccuracy m a >>> (t - e).toNat, t) := by
    unfold shiftToTargetExponent shiftToExponent
    rw [htarget]
    dsimp only
    congr 1
    omega
  have hbounds := roundedMantissa_bounds
    (ExtendedMantissa.ofMantissaAndAccuracy m a >>> (t - e).toNat)
  rw [mantissa_shiftRight, mantissa_ofMantissaAndAccuracy] at hbounds
  refine ⟨_, hbounds.1, hbounds.2, fun ha => ha ▸ roundedMantissa_lt m _, ?_⟩
  have hshort := cut_lt ht het
  have hlow : -1074 ≤ t := by omega
  unfold roundWithAccuracy carried
  rw [hfirst]
  dsimp only
  generalize (ExtendedMantissa.ofMantissaAndAccuracy m a >>> (t - e).toNat).roundedMantissa = n
    at hbounds ⊢
  by_cases hn : n < 2 ^ 53
  · rw [shiftToTargetExponent_of_lt hn hlow]
    simp only [hn, if_true]
  · obtain rfl : n = 2 ^ 53 := by omega
    rw [shiftToTargetExponent_carry hlow]
    rfl

end Cut

section Bounds

variable {s : Sign} {n : Nat} {e : Int} {r : ℝ}

theorem partsValue_carried (hn : n ≤ 2 ^ 53) :
    partsValue (carried s n e) = signed s (n * 2 ^ e) := by
  unfold carried
  split_ifs with h0 hlt
  · cases s <;> simp [h0, partsValue, signed]
  · simp only [partsValue, cast_apply]
    cases s <;> simp [signed]
  · obtain rfl : n = 2 ^ 53 := by omega
    simp only [partsValue, cast_apply, two_zpow_succ]
    cases s <;> simp [signed] <;> ring

theorem canonical_carried (he : -1074 ≤ e) (hhigh : e ≤ 970 ∨ e = 971 ∧ n < 2 ^ 53)
    (hne : e = -1074 ∨ 2 ^ 52 ≤ n) : Canonical (carried s n e) := by
  unfold carried
  split_ifs with h0 hlt
  · trivial
  · exact ⟨hlt, he, by omega, hne⟩
  · exact ⟨by omega, by omega, by omega, .inr le_rfl⟩

theorem repack_carried_of_overflow (hhigh : ¬ (e ≤ 970 ∨ e = 971 ∧ n < 2 ^ 53))
    (hn : 2 ^ 52 ≤ n) : repack (carried s n e) = .infinity s := by
  unfold carried
  rw [dif_neg (by omega)]
  split_ifs
  · exact repack_of_overflow _ (by omega)
  · exact repack_of_overflow _ (by omega)

theorem isFinite_carried : (carried s n e).isFinite = true := by
  unfold carried
  split_ifs <;> rfl

theorem abs_signed (s : Sign) (r : ℝ) : |signed s r| = |r| := by
  cases s <;> simp [signed]

theorem signed_sub (s : Sign) (r q : ℝ) : signed s r - signed s q = signed s (r - q) := by
  cases s <;> simp only [signed]
  ring

theorem rounds_infinity (hr : overflow ≤ r) : Rounds (signed s r) (.infinity s) := by
  cases s with
  | negative => exact .below (neg_le_neg hr)
  | positive => exact .above hr

theorem rounds_carried (hn : n ≤ 2 ^ 53) (he : -1074 ≤ e) (hr : 0 < r)
    (herror : |n * 2 ^ e - r| ≤ 2 ^ e) (hlow : e = -1074 ∨ 2 ^ 52 ≤ n ∧ 2 ^ 52 * 2 ^ e ≤ r) :
    Rounds (signed s r) (repack (carried s n e)) := by
  have hne : e = -1074 ∨ 2 ^ 52 ≤ n := hlow.imp_right And.left
  by_cases hhigh : e ≤ 970 ∨ e = 971 ∧ n < 2 ^ 53
  · rw [repack_eq (canonical_carried he hhigh hne)]
    refine .near isFinite_carried ?_ ?_
    · have hulp : (2 : ℝ) ^ e ≤ roundoff * r + underflow := by
        rcases hlow with rfl | ⟨-, hlow⟩
        · have := mul_pos roundoff_pos hr
          rw [underflow]
          linarith
        · have hscaled := mul_le_mul_of_nonneg_left hlow roundoff_pos.le
          have hroundoff : roundoff * (2 ^ 52 * 2 ^ e) = 2 ^ e := by
            rw [← mul_assoc, roundoff]
            norm_num
          linarith [underflow_pos]
      rw [partsValue_carried hn, signed_sub, abs_signed, abs_signed, abs_of_pos hr]
      exact herror.trans hulp
    · intro hsign
      rw [partsValue_carried hn]
      cases s with
      | positive => exact mul_nonneg n.cast_nonneg (two_zpow_pos e).le
      | negative =>
        simp only [signed] at hsign
        linarith
  · -- the exponent is out of range, and so was the number
    have hr' : overflow ≤ r := by
      rcases hlow with rfl | ⟨-, hlow⟩
      · omega
      · have hover : overflow = 2 ^ 52 * 2 ^ (971 : Int) := by
          rw [overflow, ← zpow_natCast, ← zpow_add₀ two_ne_zero]
          rfl
        have := two_zpow_le (show 971 ≤ e by omega)
        linarith
    rw [repack_carried_of_overflow hhigh (hne.resolve_left (by omega))]
    exact rounds_infinity hr'

theorem rounds_roundWithAccuracy {m : Nat} (a : Accuracy) (hr : 0 < r) (hlo : m * 2 ^ e ≤ r)
    (hhi : r ≤ (m + 1) * 2 ^ e) (hm : 2 ^ 52 ≤ m ∨ e ≤ -1074) :
    Rounds (signed s r) (repack (roundWithAccuracy Format.binary64 s m e a)) := by
  obtain ⟨t, ht⟩ : ∃ t : Int, t = max (m.log2 + e - 52) (-1074) := ⟨_, rfl⟩
  have hlog : 2 ^ 52 ≤ m → 52 ≤ m.log2 := fun h => (Nat.le_log2 (by omega)).2 h
  have het : e ≤ t := by
    rcases hm with h | h
    · have := hlog h
      omega
    · omega
  obtain ⟨n, hfloor, hceil, -, hround⟩ := roundWithAccuracy_eq ht het s a
  have hshort := cut_lt ht het
  have hlong := le_cut ht het
  rw [hround]
  obtain ⟨k, rfl⟩ : ∃ k : Nat, t = e + k := ⟨(t - e).toNat, by omega⟩
  rw [show (e + k - e).toNat = k by omega] at hfloor hceil hshort hlong
  -- the mantissa without its last bits, and what was cut off, at the new exponent
  have hpos : (0 : ℝ) < 2 ^ k := by positivity
  have hmove : ∀ x : ℝ, x * 2 ^ (e + k) = x * 2 ^ k * 2 ^ e := by
    intro x
    rw [zpow_add₀ two_ne_zero, zpow_natCast]
    ring
  have hcut : (m / 2 ^ k : Nat) * 2 ^ (e + k) ≤ r := by
    have hdiv : ((m / 2 ^ k : Nat) : ℝ) * 2 ^ k ≤ m := by
      exact_mod_cast Nat.div_mul_le_self m (2 ^ k)
    rw [hmove]
    exact (mul_le_mul_of_nonneg_right hdiv (two_zpow_pos e).le).trans hlo
  have hrest : r ≤ ((m / 2 ^ k : Nat) + 1) * 2 ^ (e + k) := by
    have hdiv : (m : ℝ) + 1 ≤ ((m / 2 ^ k : Nat) + 1) * 2 ^ k := by
      have hmod := Nat.lt_mul_div_succ m (show 0 < 2 ^ k by positivity)
      exact_mod_cast (mul_comm (2 ^ k) (m / 2 ^ k + 1)) ▸ hmod
    rw [hmove]
    exact hhi.trans (mul_le_mul_of_nonneg_right hdiv (two_zpow_pos e).le)
  have hfloor' : ((m / 2 ^ k : Nat) : ℝ) ≤ n := by exact_mod_cast hfloor
  have hceil' : (n : ℝ) ≤ (m / 2 ^ k : Nat) + 1 := by exact_mod_cast hceil
  refine rounds_carried (by omega) (by omega) hr ?_ ?_
  · have := mul_le_mul_of_nonneg_right hfloor' (two_zpow_pos (e + k)).le
    have := mul_le_mul_of_nonneg_right hceil' (two_zpow_pos (e + k)).le
    rw [abs_le]
    constructor <;> linarith
  · refine or_iff_not_imp_left.2 fun hnormal => ⟨(hlong hnormal).trans hfloor, ?_⟩
    have hlong' : (2 ^ 52 : ℝ) ≤ (m / 2 ^ k : Nat) := by exact_mod_cast hlong hnormal
    exact (mul_le_mul_of_nonneg_right hlong' (two_zpow_pos (e + k)).le).trans hcut

end Bounds

end Toolpath.Number
