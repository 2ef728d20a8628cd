import Toolpath.Proofs.Number.Operations

/-!
# Numbers near each other

Errors of computed numbers, as a relative and an absolute part. They are kept for both directions,
so that they add up along a computation.
-/

namespace Toolpath.Number

/-- Equal up to a part `δ` of the number and a rest `τ`, seen from either side. -/
structure Near (δ τ a b : ℝ) : Prop where
  upper : a ≤ (1 + δ) * b + τ
  lower : b ≤ (1 + δ) * a + τ

namespace Near

variable {δ δ' τ τ' a b c a' b' : ℝ}

theorem mono (h : Near δ τ a b) (ha : 0 ≤ a) (hb : 0 ≤ b) (hδ : δ ≤ δ') (hτ : τ ≤ τ') :
    Near δ' τ' a b := by
  have := mul_le_mul_of_nonneg_right hδ ha
  have := mul_le_mul_of_nonneg_right hδ hb
  exact ⟨by linarith [h.upper], by linarith [h.lower]⟩

theorem trans (h : Near δ τ a b) (h' : Near δ' τ' b c) (hδ : 0 ≤ δ) (hδ' : 0 ≤ δ') (hτ : 0 ≤ τ)
    (hτ' : 0 ≤ τ') : Near (δ + δ' + δ * δ') (τ + τ' + δ * τ' + δ' * τ) a c := by
  have hup := mul_le_mul_of_nonneg_left h'.upper (show 0 ≤ 1 + δ by linarith)
  have hlow := mul_le_mul_of_nonneg_left h.lower (show 0 ≤ 1 + δ' by linarith)
  have := mul_nonneg hδ hτ'
  have := mul_nonneg hδ' hτ
  exact ⟨by linarith [h.upper], by linarith [h'.lower]⟩

theorem add (h : Near δ τ a b) (h' : Near δ τ' a' b') : Near δ (τ + τ') (a + a') (b + b') :=
  ⟨by linarith [h.upper, h'.upper], by linarith [h.lower, h'.lower]⟩

theorem sqrt (h : Near δ τ a b) (hδ : 0 ≤ δ) (ha : 0 ≤ a) (hb : 0 ≤ b) (hτ : 0 ≤ τ) :
    Near δ (√τ) (√a) (√b) := by
  have hroot : ∀ {x y : ℝ}, 0 ≤ y → x ≤ (1 + δ) * y + τ → √x ≤ (1 + δ) * √y + √τ := by
    intro x y hy hxy
    have hsquare : ((1 + δ) * √y + √τ) ^ 2 =
        (1 + δ) * y + τ + (δ * (1 + δ) * y + 2 * (1 + δ) * (√y * √τ)) := by
      rw [add_sq, mul_pow, Real.sq_sqrt hy, Real.sq_sqrt hτ]
      ring
    have hrest : 0 ≤ δ * (1 + δ) * y + 2 * (1 + δ) * (√y * √τ) := by positivity
    refine Real.sqrt_le_iff.2 ⟨by positivity, ?_⟩
    rw [hsquare]
    linarith
  exact ⟨hroot hb h.upper, hroot ha h.lower⟩

theorem sq (h : Near δ τ a b) (hδ : 0 < δ) (ha : 0 ≤ a) (hb : 0 ≤ b) :
    Near ((1 + δ) ^ 3 - 1) (τ ^ 2 * (1 + 1 / δ)) (a ^ 2) (b ^ 2) := by
  -- `(x + τ) ^ 2 ≤ (1 + δ) * x ^ 2 + (1 + 1 / δ) * τ ^ 2`
  have hsquare : ∀ {x y : ℝ}, 0 ≤ x → x ≤ (1 + δ) * y + τ →
      x ^ 2 ≤ (1 + ((1 + δ) ^ 3 - 1)) * y ^ 2 + τ ^ 2 * (1 + 1 / δ) := by
    intro x y hx hxy
    have hle : x ^ 2 ≤ ((1 + δ) * y + τ) ^ 2 := pow_le_pow_left₀ hx hxy 2
    have hmean : 0 ≤ (δ * ((1 + δ) * y) - τ) ^ 2 / δ := by positivity
    have hsplit : (δ * ((1 + δ) * y) - τ) ^ 2 / δ =
        δ * ((1 + δ) * y) ^ 2 - 2 * ((1 + δ) * y) * τ + τ ^ 2 * (1 / δ) := by
      field_simp
      ring
    linarith
  exact ⟨hsquare ha h.upper, hsquare hb h.lower⟩

theorem scale (h : Near δ τ a b) {k : ℝ} (hk : 0 ≤ k) : Near δ (τ * k) (a * k) (b * k) := by
  have hup := mul_le_mul_of_nonneg_right h.upper hk
  have hlow := mul_le_mul_of_nonneg_right h.lower hk
  exact ⟨by linarith, by linarith⟩

theorem div (h : Near δ τ a b) (h' : Near δ' 0 a' b') {M : ℝ} (hδ : 0 ≤ δ) (hδ' : 0 ≤ δ')
    (hτ : 0 ≤ τ) (ha : 0 ≤ a) (hb : 0 ≤ b) (ha' : 0 < a') (hb' : 0 < b') (hMa : 1 / a' ≤ M)
    (hMb : 1 / b' ≤ M) :
    Near (δ + δ' + δ * δ') ((1 + δ') * τ * M) (a / a') (b / b') := by
  have hquot : ∀ {x y x' y' : ℝ}, 0 ≤ y → 0 < x' → 0 < y' → x ≤ (1 + δ) * y + τ →
      y' ≤ (1 + δ') * x' + 0 → 1 / y' ≤ M →
      x / x' ≤ (1 + (δ + δ' + δ * δ')) * (y / y') + (1 + δ') * τ * M := by
    intro x y x' y' hy hx' hy' hxy hinv hM
    have hinverse : 1 / x' ≤ (1 + δ') * (1 / y') := by
      rw [mul_one_div, div_le_div_iff₀ hx' hy']
      linarith
    calc x / x' = x * (1 / x') := div_eq_mul_one_div x x'
      _ ≤ ((1 + δ) * y + τ) * (1 / x') := by gcongr
      _ ≤ ((1 + δ) * y + τ) * ((1 + δ') * (1 / y')) := by gcongr
      _ = (1 + (δ + δ' + δ * δ')) * (y / y') + (1 + δ') * τ * (1 / y') := by ring
      _ ≤ (1 + (δ + δ' + δ * δ')) * (y / y') + (1 + δ') * τ * M := by gcongr
  exact ⟨hquot hb ha' hb' h.upper h'.lower hMb, hquot ha hb' ha' h.lower h'.upper hMa⟩

end Near

section Rounded

variable {x y : Float} {r : ℝ}

theorem Rounds.error (h : Rounds r x.toModel.unpack) (hfin : x.isFinite = true) :
    |value x - r| ≤ roundoff * |r| + underflow := by
  rw [isFinite_eq] at hfin
  unfold value
  generalize x.toModel.unpack = u at *
  cases h with
  | near _ herror _ => exact herror
  | above _ => cases hfin
  | below _ => cases hfin

theorem Rounds.nonneg (h : Rounds r x.toModel.unpack) (hr : 0 ≤ r) : 0 ≤ value x := by
  unfold value
  generalize x.toModel.unpack = u at *
  cases h with
  | near _ _ hsign => exact hsign hr
  | above _ => exact le_rfl
  | below _ => exact le_rfl

theorem Rounds.isFinite (h : Rounds r x.toModel.unpack) (hr : |r| < overflow) :
    x.isFinite = true := by
  rw [isFinite_eq]
  generalize x.toModel.unpack = u at *
  cases h with
  | near hfin _ _ => exact hfin
  | above hover => exact absurd hr (not_lt.2 (hover.trans (le_abs_self r)))
  | below hover => exact absurd hr (not_lt.2 ((le_neg_of_le_neg hover).trans (neg_le_abs r)))

theorem Rounds.eq_infinity (h : Rounds r x.toModel.unpack) (hr : 0 ≤ r)
    (hfin : x.isFinite ≠ true) : x.toModel.unpack = .infinity .positive := by
  rw [isFinite_eq] at hfin
  generalize x.toModel.unpack = u at *
  cases h with
  | near hfin' _ _ => exact absurd hfin' hfin
  | above _ => rfl
  | below hover =>
    have : 0 < overflow := two_zpow_pos _
    linarith

theorem Rounds.isNaN (h : Rounds r x.toModel.unpack) : x.isNaN = false := by
  rw [isNaN_eq]
  generalize x.toModel.unpack = u at *
  cases h with
  | near hfin _ _ => cases u <;> first | rfl | cases hfin
  | above _ => rfl
  | below _ => rfl

theorem isNaN_mul (hx : x.isNaN = false) (hpos : 0 < y) (hy : y.isFinite = true) :
    (x * y).isNaN = false := by
  by_cases hfin : x.isFinite = true
  · exact (value_mul hfin hy).isNaN
  · have hprod : (x * y).isNaN = (repack (Float.Model.UnpackedFloat.mul
        Float.Model.Format.binary64 x.toModel.unpack y.toModel.unpack)).isNaN := rfl
    have hvalue := value_pos hpos hy
    rw [value] at hvalue
    rw [isFinite_eq] at hfin hy
    rw [isNaN_eq] at hx
    rw [hprod]
    cases hu : x.toModel.unpack with
    | infinity s =>
      cases hv : y.toModel.unpack with
      | finite t n f hn =>
        rw [Float.Model.UnpackedFloat.mul, repack_eq (u := .infinity (s * t)) trivial]
        rfl
      | zero t =>
        rw [hv] at hvalue
        exact absurd hvalue (lt_irrefl 0)
      | _ =>
        rw [hv] at hy
        cases hy
    | notANumber =>
      rw [hu] at hx
      cases hx
    | _ =>
      rw [hu] at hfin
      exact absurd rfl hfin

theorem roundoff_le : roundoff ≤ 1 / 16 := by
  norm_num [roundoff]

theorem underflow_le : underflow ≤ roundoff ^ 3 := by
  rw [roundoff, underflow, ← zpow_natCast, ← zpow_mul]
  exact two_zpow_le (by norm_num)

theorem Rounds.near_abs (h : Rounds r x.toModel.unpack) (hfin : x.isFinite = true) :
    Near (2 * roundoff) (2 * underflow) |value x| |r| := by
  have herror := h.error hfin
  have hup := abs_sub_abs_le_abs_sub (value x) r
  have hlow := abs_sub_abs_le_abs_sub r (value x)
  rw [abs_sub_comm] at hlow
  have := abs_nonneg r
  have := roundoff_pos
  have := roundoff_le
  have := underflow_pos
  constructor
  · nlinarith
  · -- `(1 + 2 * roundoff) * (1 - roundoff)` is at least one
    have hscaled := mul_le_mul_of_nonneg_left
      (show (1 - roundoff) * |r| ≤ |value x| + underflow by linarith)
      (show 0 ≤ 1 + 2 * roundoff by linarith)
    nlinarith [mul_nonneg (mul_nonneg roundoff_pos.le (show 0 ≤ 1 - 2 * roundoff by linarith))
      (abs_nonneg r)]

theorem Rounds.near_value (h : Rounds r x.toModel.unpack) (hfin : x.isFinite = true)
    (hr : 0 ≤ r) : Near (2 * roundoff) (2 * underflow) (value x) r := by
  have hnear := h.near_abs hfin
  rwa [abs_of_nonneg hr, abs_of_nonneg (h.nonneg hr)] at hnear

theorem Rounds.near_relative (h : Rounds r x.toModel.unpack) (hfin : x.isFinite = true)
    (hr : 0 ≤ r) (hsmall : 4 * underflow ≤ roundoff * r) : Near (2 * roundoff) 0 (value x) r := by
  have herror := h.error hfin
  rw [abs_of_nonneg hr] at herror
  obtain ⟨hlow, hhigh⟩ := abs_le.1 herror
  have hslack := mul_nonneg roundoff_pos.le hr
  constructor
  · linarith
  · -- `(1 + 2 * roundoff) * (1 - 5 / 4 * roundoff)` is at least one
    have hpos : 0 ≤ 1 + 2 * roundoff := by linarith [roundoff_pos]
    have hscaled := mul_le_mul_of_nonneg_left
      (by linarith : (1 - 5 / 4 * roundoff) * r ≤ value x) hpos
    have hrest : 0 ≤ (3 / 4 - 5 / 2 * roundoff) * (roundoff * r) :=
      mul_nonneg (by linarith [roundoff_le]) hslack
    linarith

theorem Rounds.bounded (h : Rounds r x.toModel.unpack) {k : ℕ} (hk : k < 1023) (hr : |r| ≤ 2 ^ k) :
    x.isFinite = true ∧ |value x| ≤ 2 ^ (k + 1) := by
  have hlarge : (2 : ℝ) ^ k < overflow := by
    rw [overflow, ← zpow_natCast]
    exact zpow_lt_zpow_right₀ one_lt_two (by exact_mod_cast hk)
  have hfin := h.isFinite (hr.trans_lt hlarge)
  refine ⟨hfin, ?_⟩
  have hup := (h.near_abs hfin).upper
  have hone : (1 : ℝ) ≤ 2 ^ k := one_le_pow₀ one_le_two
  have hroundoff := roundoff_le
  have hunderflow : underflow ≤ 1 / 16 := underflow_le.trans (by norm_num [roundoff])
  rw [pow_succ]
  nlinarith [abs_nonneg r]

theorem not_lt_of_infinity (hx : x.toModel.unpack = .infinity .positive)
    (hy : y.isFinite = true) : ¬ x < y := by
  intro hlt
  obtain ⟨hnx, -, hrank⟩ := lt_iff.1 hlt
  rw [rank_eq hnx, hx] at hrank
  exact absurd hrank (not_lt.2 (isFinite_iff.1 hy).2.2.le)

theorem infinity_sub {s : Float.Model.UnpackedFloat.Sign} (hx : x.toModel.unpack = .infinity s)
    (hy : y.isFinite = true) : (x - y).toModel.unpack = .infinity s := by
  have hsub : (x - y).toModel.unpack = repack (Float.Model.UnpackedFloat.sub
      Float.Model.Format.binary64 (.infinity s) y.toModel.unpack) := hx ▸ rfl
  rw [isFinite_eq] at hy
  rw [hsub]
  cases hu : y.toModel.unpack with
  | infinity t =>
    rw [hu] at hy
    cases hy
  | notANumber =>
    rw [hu] at hy
    cases hy
  | _ => exact repack_eq (u := .infinity s) trivial

theorem isNaN_sub (hx : x.isNaN = false) (hy : y.isFinite = true) : (x - y).isNaN = false := by
  by_cases hfin : x.isFinite = true
  · exact (value_sub hfin hy).isNaN
  · rw [isFinite_eq] at hfin
    rw [isNaN_eq] at hx ⊢
    cases hu : x.toModel.unpack with
    | infinity s =>
      rw [infinity_sub hu hy]
      rfl
    | notANumber =>
      rw [hu] at hx
      cases hx
    | _ =>
      rw [hu] at hfin
      exact absurd rfl hfin

theorem Rounds.lt_of_lt (h : Rounds r x.toModel.unpack) (hlt : x < y)
    (hy : y.isFinite = true) (hy0 : 0 ≤ value y) :
    r < value y + (roundoff * |r| + underflow) := by
  have hslack : 0 ≤ roundoff * |r| := mul_nonneg roundoff_pos.le (abs_nonneg r)
  have hu := underflow_pos
  by_cases hx : x.isFinite = true
  · have := value_lt_of_lt hlt hx hy
    linarith [(abs_le.1 (h.error hx)).1]
  · rcases lt_or_ge r 0 with hr | hr
    · linarith
    · exact absurd hlt (not_lt_of_infinity (h.eq_infinity hr hx) hy)

end Rounded

end Toolpath.Number
