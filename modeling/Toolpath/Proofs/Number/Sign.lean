import Toolpath.Proofs.Number.Grid

/-!
# The signs of results

A positive number is a finite one or infinity, and so are the products and sums that it takes part
in. Zeros of either sign are one number, but not one double.
-/

namespace Toolpath.Number

open Float.Model
open Float.Model.UnpackedFloat

section Signs

/-! A computed sum or difference has the sign of the exact one. -/

variable {a b : Float}

theorem value_add_eq_ticks (a b : Float) :
    value a + value b = ((ticks a + ticks b : ℤ) : ℝ) * underflow := by
  rw [value_eq_ticks, value_eq_ticks]
  push_cast
  ring

theorem value_sub_eq_ticks (a b : Float) :
    value a - value b = ((ticks a - ticks b : ℤ) : ℝ) * underflow := by
  rw [value_eq_ticks, value_eq_ticks]
  push_cast
  ring

variable (ha : a.isFinite = true) (hb : b.isFinite = true)
include ha hb

theorem zero_lt_add_iff : 0 < a + b ↔ 0 < value a + value b := by
  have h := faithful_add ha hb
  rw [value_add_eq_ticks] at h ⊢
  exact h.pos_iff

theorem add_lt_zero_iff : a + b < 0 ↔ value a + value b < 0 := by
  have h := faithful_add ha hb
  rw [value_add_eq_ticks] at h ⊢
  exact h.neg_iff

theorem zero_lt_sub_iff : 0 < a - b ↔ value b < value a := by
  have h := faithful_sub ha hb
  rw [value_sub_eq_ticks] at h
  rw [h.pos_iff, ← value_sub_eq_ticks, sub_pos]

theorem sub_lt_zero_iff : a - b < 0 ↔ value a < value b := by
  have h := faithful_sub ha hb
  rw [value_sub_eq_ticks] at h
  rw [h.neg_iff, ← value_sub_eq_ticks, sub_neg]

theorem sub_beq_zero_iff : (a - b == 0) = true ↔ value a = value b := by
  have hnumber : (a - b).isNaN = false := (faithful_sub ha hb).number
  have hpos := zero_lt_sub_iff ha hb
  have hneg := sub_lt_zero_iff ha hb
  rw [lt_iff, and_iff_right isNaN_zero, and_iff_right hnumber, rank_zero] at hpos
  rw [lt_iff, and_iff_right hnumber, and_iff_right isNaN_zero, rank_zero] at hneg
  rw [beq_iff, and_iff_right hnumber, and_iff_right isNaN_zero, rank_zero]
  grind

end Signs

variable {x y : Float} {r : ℝ} {s : Sign}

section Infinity

theorem rank_infinity (h : x.toModel.unpack = .infinity s) :
    x.isNaN = false ∧ rank x = s.apply (2047 * 2 ^ 52) := by
  have hnumber : x.isNaN = false := by
    rw [isNaN_eq, h]
    rfl
  exact ⟨hnumber, by rw [rank_eq hnumber, h, unpackedRank]⟩

theorem zero_lt_infinity (h : x.toModel.unpack = .infinity .positive) : 0 < x := by
  obtain ⟨hnumber, hrank⟩ := rank_infinity h
  rw [lt_iff, hrank, rank_zero]
  exact ⟨isNaN_zero, hnumber, by decide⟩

theorem infinity_lt_zero (h : x.toModel.unpack = .infinity .negative) : x < 0 := by
  obtain ⟨hnumber, hrank⟩ := rank_infinity h
  rw [lt_iff, hrank, rank_zero]
  exact ⟨hnumber, isNaN_zero, by decide⟩

theorem pos_cases (h : 0 < x) :
    x.isFinite = true ∧ 0 < value x ∨ x.toModel.unpack = .infinity .positive := by
  by_cases hfin : x.isFinite = true
  · exact .inl ⟨hfin, value_pos h hfin⟩
  · obtain ⟨-, hnumber, hrank⟩ := lt_iff.1 h
    rw [rank_zero] at hrank
    rw [isFinite_eq] at hfin
    rw [isNaN_eq] at hnumber
    cases hx : x.toModel.unpack with
    | infinity t =>
      cases t with
      | positive => exact .inr rfl
      | negative =>
        rw [(rank_infinity hx).2] at hrank
        exact absurd hrank (by decide)
    | notANumber => rw [hx] at hnumber; cases hnumber
    | _ => rw [hx] at hfin; exact absurd rfl hfin

end Infinity

section Product

theorem Rounds.pos (h : Rounds r x.toModel.unpack) (hr : 2 * underflow ≤ r) : 0 < x := by
  have hu := underflow_pos
  by_cases hfin : x.isFinite = true
  · rw [← value_lt_iff (by decide) hfin, value_zero]
    have herror := abs_le.1 (h.error hfin)
    rw [abs_of_pos (by linarith)] at herror
    nlinarith [roundoff_le]
  · exact zero_lt_infinity (h.eq_infinity (by linarith) hfin)

theorem underflow_le_value (h : 0 < value x) : underflow ≤ value x := by
  rw [value_eq_ticks] at h ⊢
  exact one_le_of_pos h

theorem mul_infinity (hx : x.toModel.unpack = .infinity .positive) (hy : y.isFinite = true)
    (hpos : 0 < value y) : (x * y).toModel.unpack = .infinity .positive := by
  have hmul : (x * y).toModel.unpack = repack (UnpackedFloat.mul Format.binary64
      x.toModel.unpack y.toModel.unpack) := rfl
  rw [isFinite_eq] at hy
  unfold value at hpos
  rw [hmul, hx]
  cases hu : y.toModel.unpack with
  | notANumber => rw [hu] at hy; cases hy
  | infinity t => rw [hu] at hy; cases hy
  | zero t => simp [hu, partsValue] at hpos
  | finite t m e hm =>
    cases t with
    | positive => exact repack_eq (u := .infinity .positive) trivial
    | negative =>
      have hmag : (0 : ℝ) < m * 2 ^ e := mul_pos (Nat.cast_pos.2 hm) (two_zpow_pos e)
      rw [hu, partsValue_finite, signed] at hpos
      linarith

theorem mul_pos_of_two_le (hx : 0 < x) (hy : y.isFinite = true) (h : 2 ≤ value y) :
    0 < x * y := by
  rcases pos_cases hx with ⟨hfin, hpos⟩ | hinf
  · refine (value_mul hfin hy).pos ?_
    nlinarith [underflow_le_value hpos, underflow_pos]
  · exact zero_lt_infinity (mul_infinity hinf hy (by linarith))

end Product

section Sum

theorem sub_of_le (hx : x.isFinite = true) (hy : y.isFinite = true) (h0 : 0 ≤ value x)
    (h : value x ≤ value y) : (x - y).isFinite = true ∧ value (x - y) ≤ 0 ∧
      (value (x - y) < 0 ↔ value x < value y) := by
  have hfaithful := faithful_sub hx hy
  have hneg : (-y).isFinite = true := by rwa [isFinite_neg_iff]
  have hle : x - y ≤ 0 := hfaithful.le (by decide) (by rw [value_zero]; linarith)
  have hge : -y ≤ x - y := hfaithful.ge hneg (by rw [value_neg]; linarith)
  have hfin := isFinite_of_le hneg (by decide) hge hle
  have hsign := sub_lt_zero_iff hx hy
  rw [← value_lt_iff hfin (by decide), value_zero] at hsign
  exact ⟨hfin, value_zero ▸ value_le_of_le hle hfin (by decide), hsign⟩

theorem add_of_le (hx : x.isFinite = true) (hy : y.isFinite = true) (h0 : value x ≤ 0)
    (h : -value y ≤ value x) : (x + y).isFinite = true ∧ 0 ≤ value (x + y) ∧
      (0 < value (x + y) ↔ -value y < value x) := by
  have hfaithful := faithful_add hx hy
  have hge : 0 ≤ x + y := hfaithful.ge (by decide) (by rw [value_zero]; linarith)
  have hle : x + y ≤ y := hfaithful.le hy (by linarith)
  have hfin := isFinite_of_le (by decide) hy hge hle
  have hsign := zero_lt_add_iff hx hy
  rw [← value_lt_iff (by decide) hfin, value_zero, ← neg_lt_iff_pos_add] at hsign
  exact ⟨hfin, value_zero ▸ value_le_of_le hge (by decide) hfin, hsign⟩

theorem add_infinity (hx : x.isFinite = true) (hy : y.toModel.unpack = .infinity s) :
    (x + y).toModel.unpack = .infinity s := by
  have hadd : (x + y).toModel.unpack = repack (UnpackedFloat.add Format.binary64
      x.toModel.unpack y.toModel.unpack) := rfl
  rw [isFinite_eq] at hx
  rw [hadd, hy]
  cases hu : x.toModel.unpack with
  | notANumber => rw [hu] at hx; cases hx
  | infinity t => rw [hu] at hx; cases hx
  | _ => exact repack_eq (u := .infinity s) trivial

theorem add_pos_of_pos (hx : x.isFinite = true) (h : 0 ≤ value x) (hy : 0 < y) : 0 < x + y := by
  rcases pos_cases hy with ⟨hfin, hpos⟩ | hinf
  · rw [zero_lt_add_iff hx hfin]
    linarith
  · exact zero_lt_infinity (add_infinity hx hinf)

theorem add_neg_lt_zero (hx : x.isFinite = true) (h : value x ≤ 0) (hy : 0 < y) : x + -y < 0 := by
  rcases pos_cases hy with ⟨hfin, hpos⟩ | hinf
  · rw [add_lt_zero_iff hx (by rwa [isFinite_neg_iff]), value_neg]
    linarith
  · refine infinity_lt_zero (add_infinity hx (s := .negative) ?_)
    rw [unpack_neg, hinf]
    rfl

end Sum

section Zeros

theorem zero_lt_or_lt_zero (hx : x.isNaN = false) (h : rank x ≠ 0) : 0 < x ∨ x < 0 := by
  rw [lt_iff, lt_iff, rank_zero]
  exact (lt_or_gt_of_ne h).symm.imp (fun h => ⟨isNaN_zero, hx, h⟩) fun h => ⟨hx, isNaN_zero, h⟩

theorem eq_zero_or_neg_zero (h : rank x = 0) : x = 0 ∨ x = -0 := by
  have hbits := x.toBits.toNat_lt
  unfold rank at h
  split_ifs at h with hlow
  · refine .inl (eq_of_toBits_eq (UInt64.toNat_inj.1 ?_))
    have hzero : (0 : Float).toBits.toNat = 0 := by decide
    omega
  · refine .inr (eq_of_toBits_eq (UInt64.toNat_inj.1 ?_))
    have hzero : (-0 : Float).toBits.toNat = 2 ^ 63 := by decide
    omega

theorem eq_or_zeros_of_beq (h : (x == y) = true) :
    x = y ∨ (x = 0 ∨ x = -0) ∧ (y = 0 ∨ y = -0) := by
  obtain ⟨-, -, hrank⟩ := beq_iff.1 h
  by_cases h0 : rank x = 0
  · exact .inr ⟨eq_zero_or_neg_zero h0, eq_zero_or_neg_zero (hrank ▸ h0)⟩
  · exact .inl (eq_of_rank_eq hrank h0)

/-- What does not tell the zeros apart does not tell equal numbers apart. -/
theorem congr_of_beq {α : Type} {f : Float → α} (hzeros : f 0 = f (-0))
    (h : x = y ∨ (x == y) = true) : f x = f y := by
  rcases h with rfl | h
  · rfl
  · rcases eq_or_zeros_of_beq h with rfl | ⟨rfl | rfl, rfl | rfl⟩
    · rfl
    · rfl
    · exact hzeros
    · exact hzeros.symm
    · rfl

theorem unpack_zero : (0 : Float).toModel.unpack = .zero .positive := rfl

theorem unpack_neg_zero : (-0 : Float).toModel.unpack = .zero .negative := rfl

theorem sub_zeros (c : Float) : c - 0 = c - (-0) ∨ (c - 0 == c - (-0)) = true := by
  have hsub (z : Float) : c - z = .ofModel (.pack (UnpackedFloat.sub Format.binary64
    c.toModel.unpack z.toModel.unpack)) := rfl
  rw [hsub, hsub, unpack_zero, unpack_neg_zero]
  cases c.toModel.unpack with
  | zero s => cases s <;> exact .inr (by decide)
  | _ => exact .inl rfl

theorem sub_eq_or_beq (c : Float) (h : (x == y) = true) :
    c - x = c - y ∨ (c - x == c - y) = true := by
  rcases eq_or_zeros_of_beq h with rfl | ⟨rfl | rfl, rfl | rfl⟩
  · exact .inl rfl
  · exact .inl rfl
  · exact sub_zeros c
  · exact (sub_zeros c).imp Eq.symm beq_symm
  · exact .inl rfl

theorem Faithful.beq (h : Faithful r x.toModel.unpack) (hy : y.isFinite = true)
    (hr : r = value y) : (x == y) = true := by
  have hle := le_iff.1 (h.le hy hr.le)
  have hge := le_iff.1 (h.ge hy hr.ge)
  exact beq_iff.2 ⟨hle.1, hle.2.1, le_antisymm hle.2.2 hge.2.2⟩

theorem sub_beq_neg {c : Float} (hx : x.isFinite = true) (h : value x = 0)
    (hc : c.isFinite = true) : (x - c == -c) = true := by
  refine (faithful_sub hx hc).beq (by rwa [isFinite_neg_iff]) ?_
  rw [h, value_neg, zero_sub]

theorem sub_beq_sub {c : Float} (hx : x.isFinite = true) (hy : y.isFinite = true)
    (hc : c.isFinite = true) (h : (x == y) = true) : (x - c == y - c) = true := by
  by_cases h0 : value x = 0
  · refine beq_trans (sub_beq_neg hx h0 hc) (beq_symm (sub_beq_neg hy ?_ hc))
    rw [← value_eq_of_beq h hx hy, h0]
  · have hne : rank x ≠ 0 := fun hrank => h0 (value_eq_zero_of_rank hrank hx)
    rw [eq_of_rank_eq (beq_iff.1 h).2.2 hne]
    exact beq_self (faithful_sub hy hc).number

end Zeros

section Vanishing

/-! What is zero or not a number stays so in products, quotients and roots. -/

def vanishing : UnpackedFloat → Bool
  | .notANumber | .zero _ => true
  | _ => false

/-- Zero or not a number. -/
def Vanishes (x : Float) : Prop := vanishing x.toModel.unpack = true

instance (x : Float) : Decidable (Vanishes x) := inferInstanceAs (Decidable (_ = true))

theorem vanishing_repack {u : UnpackedFloat} (h : vanishing u = true) :
    vanishing (repack u) = true := by
  cases u with
  | notANumber => rwa [repack_eq (u := .notANumber) trivial]
  | zero s => rwa [repack_eq (u := .zero s) trivial]
  | _ => cases h

theorem vanishes_of_isNaN (h : x.isNaN = true) : Vanishes x := by
  rw [isNaN_eq] at h
  unfold Vanishes
  cases hu : x.toModel.unpack with
  | notANumber => rfl
  | _ =>
    rw [hu] at h
    cases h

theorem Vanishes.mul_left (h : Vanishes y) (x : Float) : Vanishes (x * y) := by
  refine vanishing_repack (u := UnpackedFloat.mul Format.binary64 x.toModel.unpack _) ?_
  unfold Vanishes at h
  cases hy : y.toModel.unpack with
  | notANumber => cases x.toModel.unpack <;> rfl
  | zero s => cases x.toModel.unpack <;> rfl
  | _ =>
    rw [hy] at h
    cases h

theorem Vanishes.div (h : Vanishes x) (y : Float) : Vanishes (x / y) := by
  refine vanishing_repack (u := UnpackedFloat.div Format.binary64 x.toModel.unpack _) ?_
  unfold Vanishes at h
  cases hx : x.toModel.unpack with
  | notANumber => cases y.toModel.unpack <;> rfl
  | zero s => cases y.toModel.unpack <;> rfl
  | _ =>
    rw [hx] at h
    cases h

theorem Vanishes.add (hx : Vanishes x) (hy : Vanishes y) : Vanishes (x + y) := by
  refine vanishing_repack (u := UnpackedFloat.add Format.binary64 x.toModel.unpack _) ?_
  unfold Vanishes at hx hy
  revert hx hy
  cases x.toModel.unpack <;> cases y.toModel.unpack <;> simp [vanishing, UnpackedFloat.add]
  split_ifs <;> rfl

theorem Vanishes.sqrt (h : Vanishes x) : Vanishes x.sqrt := by
  refine vanishing_repack (u := UnpackedFloat.sqrt Format.binary64 x.toModel.unpack) ?_
  unfold Vanishes at h
  cases hx : x.toModel.unpack with
  | notANumber => rfl
  | zero s => rfl
  | _ =>
    rw [hx] at h
    cases h

theorem Vanishes.toUInt64 (h : Vanishes x) : x.toUInt64.toNat = 0 := by
  change (UInt64.ofNatClamp (x.toModel.unpack.toInt 0 (UInt64.size - 1 : Int)).toNat).toNat = 0
  unfold Vanishes at h
  cases hx : x.toModel.unpack with
  | notANumber => rfl
  | zero s => rfl
  | _ =>
    rw [hx] at h
    cases h

end Vanishing

end Toolpath.Number
