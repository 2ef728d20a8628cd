import Toolpath.Proofs.Number.Rounding

/-!
# The operations on numbers

Sums, differences, products, quotients and roots of doubles are the rounded ones of their values.
-/

namespace Toolpath.Number

open Float.Model
open Float.Model.UnpackedFloat

theorem rounds_self {u : UnpackedFloat} (h : u.isFinite = true) : Rounds (partsValue u) u := by
  refine .near h ?_ id
  have := mul_nonneg roundoff_pos.le (abs_nonneg (partsValue u))
  rw [sub_self, abs_zero]
  linarith [underflow_pos]

theorem rounds_repack {u : UnpackedFloat} (h : Canonical u) (hfin : u.isFinite = true) :
    Rounds (partsValue u) (repack u) := by
  rw [repack_eq h]
  exact rounds_self hfin

theorem rounds_zero (s : Sign) : Rounds 0 (repack (.zero s)) :=
  rounds_repack (u := .zero s) trivial rfl

section Shifted

theorem shiftLeft_zpow (m k : Nat) (e : Int) : ((m <<< k : Nat) : ℝ) * 2 ^ (e - k) = m * 2 ^ e := by
  rw [Nat.shiftLeft_eq, zpow_sub₀ two_ne_zero, zpow_natCast]
  push_cast
  field_simp

theorem two_pow_le_shiftLeft {m k j : Nat} (hm : 0 < m) (h : j ≤ m.log2 + k) :
    2 ^ j ≤ m <<< k := by
  rw [Nat.shiftLeft_eq]
  calc 2 ^ j ≤ 2 ^ (m.log2 + k) := Nat.pow_le_pow_right two_pos h
    _ = 2 ^ m.log2 * 2 ^ k := pow_add ..
    _ ≤ m * 2 ^ k := Nat.mul_le_mul_right _ (Nat.log2_self_le hm.ne')

end Shifted

section Sum

/-- Before rounding the mantissa is made long enough to fill a double. -/
theorem round_eq (s : Sign) {m : Nat} (hm : 0 < m) (e : Int) : ∃ k : Nat,
    round Format.binary64 s m e =
      roundWithAccuracy Format.binary64 s (m <<< k) (e - k) .exact ∧
    (2 ^ 52 ≤ m <<< k ∨ e - k ≤ -1074) := by
  unfold UnpackedFloat.round decreaseExponent
  rw [targetExponent_binary64, totalExponent]
  refine ⟨(e - max (m.log2 + 1 + e - 53) (-1074)).toNat, rfl, ?_⟩
  exact or_iff_not_imp_right.2 fun hlow => two_pow_le_shiftLeft hm (by omega)

theorem rounds_round (s : Sign) {m : Nat} (hm : 0 < m) (e : Int) :
    Rounds (signed s (m * 2 ^ e)) (repack (round Format.binary64 s m e)) := by
  obtain ⟨k, hround, hlong⟩ := round_eq s hm e
  have hvalue := shiftLeft_zpow m k e
  have hpos : (0 : ℝ) < m * 2 ^ e := mul_pos (Nat.cast_pos.2 hm) (two_zpow_pos e)
  rw [hround]
  refine rounds_roundWithAccuracy _ hpos hvalue.le ?_ hlong
  rw [← hvalue]
  exact mul_le_mul_of_nonneg_right (by linarith) (two_zpow_pos _).le

theorem align (s : Sign) (m : Nat) {e f : Int} (h : f ≤ e) :
    ((s.apply (m <<< (e - f).toNat : Nat) : Int) : ℝ) * 2 ^ f = s.apply m * 2 ^ e := by
  have hvalue := shiftLeft_zpow m (e - f).toNat e
  rw [show e - ((e - f).toNat : Int) = f by omega] at hvalue
  cases s <;> simp only [cast_apply, signed, Int.cast_natCast, neg_mul, hvalue]

section Cases

/-! What holds of a double that stays as it is, and of a rounded one, holds of a sum. -/

variable {P : ℝ → UnpackedFloat → Prop}
  (hself : ∀ {u}, Canonical u → u.isFinite = true → P (partsValue u) (repack u))
  (hround : ∀ s {m : Nat}, 0 < m → ∀ e : Int,
    P (signed s (m * 2 ^ e)) (repack (round Format.binary64 s m e)))
include hself hround

theorem normalize_cases (m e : Int) (s : Sign) :
    P (m * 2 ^ e) (repack (normalize Format.binary64 m e s)) := by
  unfold UnpackedFloat.normalize
  rcases lt_trichotomy m 0 with hm | rfl | hm
  · rw [compare_lt_iff_lt.2 hm]
    have := hround .negative (show 0 < (-m).toNat by omega) e
    have hcast : (((-m).toNat : Nat) : ℝ) = -m := by exact_mod_cast Int.toNat_of_nonneg (by omega)
    simpa [signed, hcast] using this
  · rw [compare_eq_iff_eq.2 rfl]
    simpa [partsValue] using hself (u := .zero s) trivial rfl
  · rw [compare_gt_iff_gt.2 hm]
    have := hround .positive (show 0 < m.toNat by omega) e
    have hcast : ((m.toNat : Nat) : ℝ) = m := by exact_mod_cast Int.toNat_of_nonneg (by omega)
    simpa [signed, hcast] using this

theorem add_cases {u v : UnpackedFloat} (hu : Canonical u) (hv : Canonical v)
    (hfu : u.isFinite = true) (hfv : v.isFinite = true) :
    P (partsValue u + partsValue v) (repack (add Format.binary64 u v)) := by
  cases u with
  | notANumber => cases hfu
  | infinity s => cases hfu
  | zero s =>
    cases v with
    | notANumber => cases hfv
    | infinity t => cases hfv
    | zero t =>
      simp only [UnpackedFloat.add, partsValue, add_zero]
      split_ifs <;> exact hself (u := .zero _) trivial rfl
    | finite t n f hn =>
      simpa [UnpackedFloat.add, partsValue] using hself hv rfl
  | finite s m e hm =>
    cases v with
    | notANumber => cases hfv
    | infinity t => cases hfv
    | zero t => simpa [UnpackedFloat.add, partsValue] using hself hu rfl
    | finite t n f hn =>
      have hsum := normalize_cases hself hround (s.apply (m <<< (e - min e f).toNat : Nat) +
        t.apply (n <<< (f - min e f).toNat : Nat)) (min e f) .positive
      rwa [Int.cast_add, add_mul, align s m (min_le_left e f), align t n (min_le_right e f)]
        at hsum

end Cases

theorem rounds_add {u v : UnpackedFloat} (hu : Canonical u) (hv : Canonical v)
    (hfu : u.isFinite = true) (hfv : v.isFinite = true) :
    Rounds (partsValue u + partsValue v) (repack (add Format.binary64 u v)) :=
  add_cases rounds_repack rounds_round hu hv hfu hfv

end Sum

section Difference

theorem apply_neg (s : Sign) (n : Int) : (-s).apply n = -s.apply n := by
  cases s
  · exact (Int.neg_neg n).symm
  · rfl

theorem partsValue_neg (u : UnpackedFloat) : partsValue u.neg = -partsValue u := by
  cases u with
  | finite s m e hm =>
    simp [UnpackedFloat.neg, partsValue, apply_neg]
  | _ => simp [UnpackedFloat.neg, partsValue]

theorem canonical_neg {u : UnpackedFloat} (h : Canonical u) : Canonical u.neg := by
  cases u with
  | finite s m e hm => exact h
  | _ => trivial

theorem isFinite_neg (u : UnpackedFloat) : u.neg.isFinite = u.isFinite := by
  cases u <;> rfl

theorem sub_eq_add (u v : UnpackedFloat) :
    UnpackedFloat.sub Format.binary64 u v = UnpackedFloat.add Format.binary64 u v.neg := by
  cases u with
  | finite s m e hm =>
    cases v with
    | finite t n f hn =>
      simp only [UnpackedFloat.sub, UnpackedFloat.add, UnpackedFloat.neg, apply_neg,
        Int.sub_eq_add_neg]
    | _ => rfl
  | _ => cases v <;> rfl

theorem rounds_sub {u v : UnpackedFloat} (hu : Canonical u) (hv : Canonical v)
    (hfu : u.isFinite = true) (hfv : v.isFinite = true) :
    Rounds (partsValue u - partsValue v) (repack (sub Format.binary64 u v)) := by
  rw [sub_eq_add, sub_eq_add_neg, ← partsValue_neg]
  exact rounds_add hu (canonical_neg hv) hfu (by rwa [isFinite_neg])

end Difference

section Product

theorem signed_mul (s t : Sign) (p q : ℝ) : signed s p * signed t q = signed (s * t) (p * q) := by
  cases s <;> cases t
  · exact neg_mul_neg p q
  · exact neg_mul p q
  · exact mul_neg p q
  · rfl

theorem partsValue_finite (s : Sign) {m : Nat} {e : Int} (hm : 0 < m) :
    partsValue (.finite s m e hm) = signed s (m * 2 ^ e) := by
  cases s <;> simp [partsValue, cast_apply, signed]

theorem rounds_mul {u v : UnpackedFloat} (hu : Canonical u) (hv : Canonical v)
    (hfu : u.isFinite = true) (hfv : v.isFinite = true) :
    Rounds (partsValue u * partsValue v) (repack (mul Format.binary64 u v)) := by
  cases u with
  | notANumber => cases hfu
  | infinity s => cases hfu
  | zero s =>
    cases v with
    | notANumber => cases hfv
    | infinity t => cases hfv
    | zero t => simpa [UnpackedFloat.mul, partsValue] using rounds_zero (s * t)
    | finite t n f hn => simpa [UnpackedFloat.mul, partsValue] using rounds_zero (s * t)
  | finite s m e hm =>
    cases v with
    | notANumber => cases hfv
    | infinity t => cases hfv
    | zero t => simpa [UnpackedFloat.mul, partsValue] using rounds_zero (s * t)
    | finite t n f hn =>
      obtain ⟨-, -, -, hem⟩ := hu
      obtain ⟨-, -, -, hfn⟩ := hv
      have hvalue : (m * 2 ^ e * (n * 2 ^ f) : ℝ) = (m * n : Nat) * 2 ^ (e + f) := by
        rw [zpow_add₀ two_ne_zero]
        push_cast
        ring
      have hpos : (0 : ℝ) < (m * n : Nat) * 2 ^ (e + f) :=
        mul_pos (Nat.cast_pos.2 (Nat.mul_pos hm hn)) (two_zpow_pos _)
      rw [partsValue_finite, partsValue_finite, signed_mul, hvalue]
      refine rounds_roundWithAccuracy _ hpos le_rfl ?_ ?_
      · exact mul_le_mul_of_nonneg_right (by linarith) (two_zpow_pos _).le
      · rcases hem with rfl | hm'
        · rcases hfn with rfl | hn'
          · exact .inr (by norm_num)
          · exact .inl (hn'.trans (Nat.le_mul_of_pos_left n hm))
        · exact .inl (hm'.trans (Nat.le_mul_of_pos_right m hn))

end Product

section Quotient

theorem signed_div (s t : Sign) (p q : ℝ) : signed s p / signed t q = signed (s / t) (p / q) := by
  cases s <;> cases t
  · exact neg_div_neg_eq p q
  · exact neg_div q p
  · exact div_neg p
  · rfl

theorem divRoundedDown (m : Nat) {n : Nat} (hn : 0 < n) :
    ((m / n : Nat) : ℝ) ≤ m / n ∧ (m / n : ℝ) ≤ (m / n : Nat) + 1 := by
  have hpos : (0 : ℝ) < n := Nat.cast_pos.2 hn
  have hle : ((m / n * n : Nat) : ℝ) ≤ m := Nat.cast_le.2 (Nat.div_mul_le_self m n)
  have hlt : (m : ℝ) ≤ (n * (m / n + 1) : Nat) := Nat.cast_le.2 (Nat.lt_mul_div_succ m hn).le
  rw [le_div_iff₀ hpos, div_le_iff₀ hpos, mul_comm ((m / n : Nat) + 1 : ℝ)]
  exact ⟨by simpa using hle, by simpa using hlt⟩

theorem le_div_shifted {m n k : Nat} (hm : 0 < m) (hn : 0 < n) (h : n.log2 + 53 ≤ m.log2 + k) :
    2 ^ 52 ≤ (m <<< k) / n := by
  rw [Nat.le_div_iff_mul_le hn]
  calc 2 ^ 52 * n ≤ 2 ^ 52 * 2 ^ (n.log2 + 1) := Nat.mul_le_mul_left _ Nat.lt_log2_self.le
    _ = 2 ^ (n.log2 + 53) := by ring
    _ ≤ m <<< k := two_pow_le_shiftLeft hm h

theorem rounds_div {u v : UnpackedFloat} (hfu : u.isFinite = true) (hfv : v.isFinite = true)
    (hne : partsValue v ≠ 0) :
    Rounds (partsValue u / partsValue v) (repack (div Format.binary64 u v)) := by
  cases v with
  | notANumber => cases hfv
  | infinity t => cases hfv
  | zero t => exact absurd rfl hne
  | finite t n f hn =>
    cases u with
    | notANumber => cases hfu
    | infinity s => cases hfu
    | zero s => simpa [UnpackedFloat.div, partsValue] using rounds_zero (s / t)
    | finite s m e hm =>
      rw [partsValue_finite, partsValue_finite, signed_div]
      unfold UnpackedFloat.div divCore
      dsimp only
      obtain ⟨g, hg⟩ : ∃ g : Int, g = min (e - f)
          (Format.binary64.targetExponent (totalExponent m e - totalExponent n f)) := ⟨_, rfl⟩
      obtain ⟨k, hk⟩ : ∃ k : Nat, k = (e - f - g).toNat := ⟨_, rfl⟩
      rw [← hg, ← hk]
      rw [targetExponent_binary64, totalExponent, totalExponent] at hg
      have hvalue : (m * 2 ^ e / (n * 2 ^ f) : ℝ) = ((m <<< k : Nat) : ℝ) / n * 2 ^ g := by
        rw [← shiftLeft_zpow m k e, show e - (k : Int) = g + f by omega, zpow_add₀ two_ne_zero]
        have := two_zpow_pos f
        have : (0 : ℝ) < n := Nat.cast_pos.2 hn
        field_simp
      obtain ⟨hlo, hhi⟩ := divRoundedDown (m <<< k) hn
      have hpos : (0 : ℝ) < m * 2 ^ e / (n * 2 ^ f) :=
        div_pos (mul_pos (Nat.cast_pos.2 hm) (two_zpow_pos e))
          (mul_pos (Nat.cast_pos.2 hn) (two_zpow_pos f))
      refine rounds_roundWithAccuracy _ hpos ?_ ?_ ?_
      · rw [hvalue]
        exact mul_le_mul_of_nonneg_right hlo (two_zpow_pos g).le
      · rw [hvalue]
        exact mul_le_mul_of_nonneg_right hhi (two_zpow_pos g).le
      · exact or_iff_not_imp_right.2 fun hlow => le_div_shifted hm hn (by omega)

end Quotient

section Root

theorem rounds_sqrtCore {m : Nat} (hm : 0 < m) (e : Int) : Rounds (√(m * 2 ^ e))
    (repack (roundWithAccuracy Format.binary64 .positive (sqrtCore Format.binary64 m e).1
      (sqrtCore Format.binary64 m e).2.1 (sqrtCore Format.binary64 m e).2.2)) := by
  have hmag : (0 : ℝ) < m * 2 ^ e := mul_pos (Nat.cast_pos.2 hm) (two_zpow_pos e)
  unfold sqrtCore
  dsimp only
  obtain ⟨g, hg⟩ : ∃ g : Int, g = min (e.ediv 2)
      (Format.binary64.targetExponent ((totalExponent m e + 1).ediv 2)) := ⟨_, rfl⟩
  obtain ⟨k, hk⟩ : ∃ k : Nat, k = (e - 2 * g).toNat := ⟨_, rfl⟩
  rw [← hg, ← hk]
  change g = min (e / 2) (max ((m.log2 + 1 + e + 1) / 2 - 53) (-1074)) at hg
  have hvalue : √(m * 2 ^ e) = √(m <<< k : Nat) * 2 ^ g := by
    rw [← shiftLeft_zpow m k e, show e - (k : Int) = g + g by omega, zpow_add₀ two_ne_zero,
      Real.sqrt_mul (Nat.cast_nonneg _), Real.sqrt_mul_self (two_zpow_pos g).le]
  change Rounds (signed .positive (√(m * 2 ^ e))) _
  refine rounds_roundWithAccuracy _ (Real.sqrt_pos.2 hmag) ?_ ?_ ?_
  · rw [hvalue]
    exact mul_le_mul_of_nonneg_right Real.nat_sqrt_le_real_sqrt (two_zpow_pos g).le
  · rw [hvalue]
    exact mul_le_mul_of_nonneg_right Real.real_sqrt_lt_nat_sqrt_succ.le (two_zpow_pos g).le
  · refine or_iff_not_imp_right.2 fun hlow => ?_
    rw [Nat.le_sqrt', ← pow_mul]
    exact two_pow_le_shiftLeft hm (by omega)

theorem rounds_sqrt {u : UnpackedFloat} (hfu : u.isFinite = true) (hu : 0 ≤ partsValue u) :
    Rounds (√(partsValue u)) (repack (sqrt Format.binary64 u)) := by
  cases u with
  | notANumber => cases hfu
  | infinity s => cases hfu
  | zero s => simpa [UnpackedFloat.sqrt, partsValue] using rounds_zero s
  | finite s m e hm =>
    have hmag : (0 : ℝ) < m * 2 ^ e := mul_pos (Nat.cast_pos.2 hm) (two_zpow_pos e)
    rw [partsValue_finite] at hu ⊢
    cases s with
    | negative =>
      simp only [signed] at hu
      linarith
    | positive => exact rounds_sqrtCore hm e

end Root

section Finite

theorem isFinite_of_repack {u : UnpackedFloat} (h : (repack u).isFinite = true) :
    u.isFinite = true := by
  cases u with
  | infinity s => rwa [repack_eq (u := .infinity s) trivial] at h
  | notANumber => rwa [repack_eq (u := .notANumber) trivial] at h
  | _ => rfl

theorem isFinite_of_add {u v : UnpackedFloat}
    (h : (UnpackedFloat.add Format.binary64 u v).isFinite = true) :
    u.isFinite = true ∧ v.isFinite = true := by
  cases u with
  | infinity s =>
    cases v with
    | infinity t => cases s <;> cases t <;> cases h
    | _ => cases h
  | notANumber => cases v <;> cases h
  | _ =>
    cases v with
    | infinity t => cases h
    | notANumber => cases h
    | _ => exact ⟨rfl, rfl⟩

theorem isFinite_of_mul {u v : UnpackedFloat}
    (h : (UnpackedFloat.mul Format.binary64 u v).isFinite = true) :
    u.isFinite = true ∧ v.isFinite = true := by
  cases u with
  | infinity s => cases v <;> cases h
  | notANumber => cases v <;> cases h
  | _ =>
    cases v with
    | infinity t => cases h
    | notANumber => cases h
    | _ => exact ⟨rfl, rfl⟩

theorem isFinite_of_sqrt {u : UnpackedFloat}
    (h : (UnpackedFloat.sqrt Format.binary64 u).isFinite = true) : u.isFinite = true := by
  cases u with
  | infinity s => cases s <;> cases h
  | notANumber => cases h
  | _ => rfl

end Finite

section Float

variable {a b : Float}

theorem value_add (ha : a.isFinite = true) (hb : b.isFinite = true) :
    Rounds (value a + value b) (a + b).toModel.unpack :=
  rounds_add (canonical_unpack a) (canonical_unpack b) ha hb

theorem value_sub (ha : a.isFinite = true) (hb : b.isFinite = true) :
    Rounds (value a - value b) (a - b).toModel.unpack :=
  rounds_sub (canonical_unpack a) (canonical_unpack b) ha hb

theorem value_mul (ha : a.isFinite = true) (hb : b.isFinite = true) :
    Rounds (value a * value b) (a * b).toModel.unpack :=
  rounds_mul (canonical_unpack a) (canonical_unpack b) ha hb

theorem value_div (ha : a.isFinite = true) (hb : b.isFinite = true) (h0 : value b ≠ 0) :
    Rounds (value a / value b) (a / b).toModel.unpack :=
  rounds_div ha hb h0

theorem value_sqrt (ha : a.isFinite = true) (h0 : 0 ≤ value a) :
    Rounds (√(value a)) a.sqrt.toModel.unpack :=
  rounds_sqrt ha h0

theorem finite_of_add (h : (a + b).isFinite = true) : a.isFinite = true ∧ b.isFinite = true :=
  isFinite_of_add (isFinite_of_repack h)

theorem finite_of_sub (h : (a - b).isFinite = true) : a.isFinite = true ∧ b.isFinite = true := by
  have hsum := isFinite_of_repack h
  rw [sub_eq_add] at hsum
  obtain ⟨ha, hb⟩ := isFinite_of_add hsum
  exact ⟨ha, (isFinite_neg _).symm.trans hb⟩

theorem finite_of_mul (h : (a * b).isFinite = true) : a.isFinite = true ∧ b.isFinite = true :=
  isFinite_of_mul (isFinite_of_repack h)

theorem finite_of_sqrt (h : a.sqrt.isFinite = true) : a.isFinite = true :=
  isFinite_of_sqrt (isFinite_of_repack h)

end Float

end Toolpath.Number
