import Toolpath.Proofs.Number.Nearness

/-!
# The grid of numbers

All finite doubles are whole multiples of the least positive one. A sum is rounded to one of its
two neighbours on the grid, so no double lies strictly between a sum and what it is rounded to.
-/

namespace Toolpath.Number

open Float.Model
open Float.Model.UnpackedFloat

/-- How many times the least positive double. -/
def ticks (x : Float) : Int :=
  match x.toModel.unpack with
  | .finite s m e _ => s.apply (m * 2 ^ (e + 1074).toNat)
  | _ => 0

theorem value_eq_ticks (x : Float) : value x = ticks x * underflow := by
  have hcanonical := canonical_unpack x
  unfold value ticks
  cases hx : x.toModel.unpack with
  | finite s m e hm =>
    rw [hx] at hcanonical
    obtain ⟨-, he, -⟩ := hcanonical
    have hpow : (2 : ℝ) ^ (e + 1074).toNat * underflow = 2 ^ e := by
      rw [underflow, ← zpow_natCast, ← zpow_add₀ two_ne_zero]
      congr 1
      omega
    rw [partsValue_finite, ← hpow]
    cases s <;> simp [Sign.apply, signed] <;> ring
  | _ => simp [partsValue]

/-- How many times the least positive double goes into one. -/
def perOne : Int := 2 ^ 1074

theorem perOne_pos : (0 : ℝ) < perOne := by
  exact Int.cast_pos.2 (pow_pos (by decide) _)

theorem value_mul_perOne (x : Float) : value x * perOne = ticks x := by
  have hone : underflow * perOne = 1 := by
    rw [underflow, zpow_neg, zpow_ofNat, perOne, Int.cast_pow, Int.cast_ofNat]
    exact inv_mul_cancel₀ (pow_ne_zero _ two_ne_zero)
  rw [value_eq_ticks, mul_assoc, hone, mul_one]

section Whole

variable {x : Float} {n : Int}

theorem value_eq_of_ticks (h : ticks x = n * perOne) : value x = n := by
  have hvalue := value_mul_perOne x
  rw [h, Int.cast_mul] at hvalue
  exact mul_right_cancel₀ perOne_pos.ne' hvalue

theorem value_le_of_ticks (h : ticks x ≤ n * perOne) : value x ≤ n := by
  refine le_of_mul_le_mul_right ?_ perOne_pos
  rw [value_mul_perOne]
  exact_mod_cast h

theorem le_value_of_ticks (h : n * perOne ≤ ticks x) : n ≤ value x := by
  refine le_of_mul_le_mul_right ?_ perOne_pos
  rw [value_mul_perOne]
  exact_mod_cast h

end Whole

variable {a b : Float}

theorem value_lt_iff (ha : a.isFinite = true) (hb : b.isFinite = true) :
    value a < value b ↔ a < b := by
  constructor
  · intro h
    refine lt_of_not_le (isNaN_of_isFinite hb) (isNaN_of_isFinite ha) fun hle => ?_
    exact absurd (value_le_of_le hle hb ha) (not_le.2 h)
  · exact fun h => value_lt_of_lt h ha hb

theorem value_le_iff (ha : a.isFinite = true) (hb : b.isFinite = true) :
    value a ≤ value b ↔ a ≤ b := by
  constructor
  · intro h
    by_contra hle
    exact absurd (value_lt_of_not_le hle ha hb) (not_lt.2 h)
  · exact fun h => value_le_of_le h ha hb

theorem value_eq_iff (ha : a.isFinite = true) (hb : b.isFinite = true) :
    value a = value b ↔ (a == b) = true := by
  constructor
  · intro h
    have hab := le_iff.1 ((value_le_iff ha hb).1 h.le)
    have hba := le_iff.1 ((value_le_iff hb ha).1 h.ge)
    exact beq_iff.2 ⟨hab.1, hab.2.1, le_antisymm hab.2.2 hba.2.2⟩
  · exact fun h => value_eq_of_beq h ha hb

/-- Rounding steps over no double. -/
structure Faithful (r : ℝ) (u : UnpackedFloat) : Prop where
  canonical : Canonical u
  number : u.isNaN = false
  upper : ∀ v, Canonical v → v.isFinite = true → r ≤ partsValue v → unpackedRank u ≤ unpackedRank v
  lower : ∀ v, Canonical v → v.isFinite = true → partsValue v ≤ r → unpackedRank v ≤ unpackedRank u

section Neighbours

variable {u v : UnpackedFloat}

theorem unpackedRank_le (hu : Canonical u) (hv : Canonical v) (hfu : u.isFinite = true)
    (hfv : v.isFinite = true) (h : partsValue u ≤ partsValue v) :
    unpackedRank u ≤ unpackedRank v := by
  by_contra hlt
  exact absurd (partsValue_lt hv hu hfv hfu (not_le.1 hlt)) (not_lt.2 h)

theorem faithful_self (hu : Canonical u) (hfu : u.isFinite = true) :
    Faithful (partsValue u) u where
  canonical := hu
  number := by cases u <;> first | rfl | cases hfu
  upper v hv hfv h := unpackedRank_le hu hv hfu hfv h
  lower v hv hfv h := unpackedRank_le hv hu hfv hfu h

theorem faithful_repack (hu : Canonical u) (hfu : u.isFinite = true) :
    Faithful (partsValue u) (repack u) := by
  rw [repack_eq hu]
  exact faithful_self hu hfu

theorem partsValue_lt_two_pow (hv : Canonical v) (hfv : v.isFinite = true) :
    partsValue v < 2 ^ (1024 : Int) := by
  cases v with
  | notANumber => cases hfv
  | infinity t => cases hfv
  | zero t => simp [partsValue]
  | finite t n f hn =>
    obtain ⟨hn', -, hf, -⟩ := hv
    have hmantissa : (n : ℝ) < 2 ^ (53 : Int) := by exact_mod_cast hn'
    have hmag : (0 : ℝ) < n * 2 ^ f := mul_pos (Nat.cast_pos.2 hn) (two_zpow_pos f)
    have hsigned : signed t (n * 2 ^ f) ≤ n * 2 ^ f := by
      cases t <;> simp only [signed] <;> linarith
    rw [partsValue_finite]
    calc signed t (n * 2 ^ f) ≤ n * 2 ^ f := hsigned
      _ < 2 ^ (53 : Int) * 2 ^ f := mul_lt_mul_of_pos_right hmantissa (two_zpow_pos f)
      _ ≤ 2 ^ (53 : Int) * 2 ^ (971 : Int) :=
          mul_le_mul_of_nonneg_left (two_zpow_le hf) (two_zpow_pos 53).le
      _ = 2 ^ (1024 : Int) := by rw [← zpow_add₀ two_ne_zero]; norm_num

theorem unpackedRank_bounds (hv : Canonical v) (hfv : v.isFinite = true) :
    -(2047 * 2 ^ 52) ≤ unpackedRank v ∧ unpackedRank v ≤ 2047 * 2 ^ 52 := by
  cases v with
  | notANumber => cases hfv
  | infinity t => cases hfv
  | zero t => simp [unpackedRank]
  | finite t n f hn =>
    obtain ⟨hn', hf, hf', -⟩ := hv
    cases t <;> simp only [unpackedRank, Sign.apply] <;> omega

theorem faithful_infinity {s : Sign} {r : ℝ}
    (h : ∀ v, Canonical v → v.isFinite = true → partsValue v < r) :
    Faithful (signed s r) (.infinity s) where
  canonical := trivial
  number := rfl
  upper v hv hfv hr := by
    cases s with
    | negative => exact (unpackedRank_bounds hv hfv).1
    | positive => exact absurd hr (not_le.2 (h v hv hfv))
  lower v hv hfv hr := by
    cases s with
    | negative =>
      have hneg := h v.neg (canonical_neg hv) ((isFinite_neg v).trans hfv)
      rw [partsValue_neg] at hneg
      simp only [signed] at hr
      linarith
    | positive => exact (unpackedRank_bounds hv hfv).2

end Neighbours

section Cut

variable {m n k : Nat} {e : Int} {v : UnpackedFloat} (hv : Canonical v)
  (hfv : v.isFinite = true) (hlong : e + k = -1074 ∨ 2 ^ 52 ≤ m / 2 ^ k)
include hv hfv hlong

/-- A double is a whole number of steps of a mantissa cut to its length, or it is smaller than all
mantissas that were cut so. -/
theorem steps_or_small (hpos : 0 ≤ partsValue v) :
    (∃ N : ℕ, partsValue v = N * 2 ^ k * 2 ^ e) ∨
      partsValue v < (m / 2 ^ k : ℕ) * 2 ^ k * 2 ^ e := by
  cases v with
  | notANumber => cases hfv
  | infinity t => cases hfv
  | zero t => exact .inl ⟨0, by simp [partsValue]⟩
  | finite t n f hn =>
    obtain ⟨hn', hf, -, -⟩ := hv
    rw [partsValue_finite] at hpos ⊢
    have hmag : (0 : ℝ) < n * 2 ^ f := mul_pos (Nat.cast_pos.2 hn) (two_zpow_pos f)
    have hstep : (2 : ℝ) ^ (e + k) = 2 ^ k * 2 ^ e := by
      rw [add_comm, zpow_add₀ two_ne_zero, zpow_natCast]
    cases t with
    | negative =>
      simp only [signed] at hpos
      linarith
    | positive =>
      rcases le_or_gt (e + k) f with hle | hlt
      · refine .inl ⟨n * 2 ^ (f - (e + k)).toNat, ?_⟩
        have hsplit : (2 : ℝ) ^ f = 2 ^ (f - (e + k)).toNat * 2 ^ (e + k) := by
          rw [← zpow_natCast, ← zpow_add₀ two_ne_zero]
          congr 1
          omega
        simp only [signed, hsplit, hstep]
        push_cast
        ring
      · refine .inr ?_
        have hmantissa : (n : ℝ) < 2 ^ 53 := by exact_mod_cast hn'
        have hfloor : (2 : ℝ) ^ 52 ≤ (m / 2 ^ k : ℕ) := by
          exact_mod_cast hlong.resolve_left (by omega)
        calc (n : ℝ) * 2 ^ f < 2 ^ 53 * 2 ^ f := mul_lt_mul_of_pos_right hmantissa (two_zpow_pos f)
          _ = 2 ^ 52 * 2 ^ (f + 1) := by rw [two_zpow_succ]; ring
          _ ≤ (m / 2 ^ k : ℕ) * 2 ^ (e + k) :=
            mul_le_mul hfloor (two_zpow_le hlt) (two_zpow_pos _).le (Nat.cast_nonneg _)
          _ = (m / 2 ^ k : ℕ) * 2 ^ k * 2 ^ e := by rw [hstep, mul_assoc]

theorem rounded_le (hn : n * 2 ^ k < m + 2 ^ k) (h : (m : ℝ) * 2 ^ e ≤ partsValue v) :
    (n : ℝ) * 2 ^ k * 2 ^ e ≤ partsValue v := by
  have he := two_zpow_pos e
  have hpos : 0 ≤ partsValue v := le_trans (by positivity) h
  rcases steps_or_small hv hfv hlong hpos with ⟨N, hN⟩ | hsmall
  · rw [hN] at h ⊢
    have hm : m ≤ N * 2 ^ k := by exact_mod_cast le_of_mul_le_mul_right h he
    have hlt : n * 2 ^ k < (N + 1) * 2 ^ k := by
      rw [Nat.add_mul, Nat.one_mul]
      omega
    have hle : (n : ℝ) ≤ N := by exact_mod_cast Nat.lt_succ_iff.1 (Nat.lt_of_mul_lt_mul_right hlt)
    gcongr
  · have hcut : ((m / 2 ^ k : ℕ) : ℝ) * 2 ^ k ≤ m := by
      exact_mod_cast Nat.div_mul_le_self m (2 ^ k)
    exact absurd (hsmall.trans_le (mul_le_mul_of_nonneg_right hcut he.le)) (not_lt.2 h)

theorem le_rounded (hn : m / 2 ^ k ≤ n) (h : partsValue v ≤ (m : ℝ) * 2 ^ e) :
    partsValue v ≤ (n : ℝ) * 2 ^ k * 2 ^ e := by
  have he := two_zpow_pos e
  rcases lt_or_ge (partsValue v) 0 with hneg | hpos
  · exact hneg.le.trans (by positivity)
  rcases steps_or_small hv hfv hlong hpos with ⟨N, hN⟩ | hsmall
  · rw [hN] at h ⊢
    have hm : N * 2 ^ k ≤ m := by exact_mod_cast le_of_mul_le_mul_right h he
    have hle : (N : ℝ) ≤ n := by
      exact_mod_cast ((Nat.le_div_iff_mul_le (Nat.two_pow_pos k)).2 hm).trans hn
    gcongr
  · have hle : ((m / 2 ^ k : ℕ) : ℝ) ≤ n := by exact_mod_cast hn
    refine hsmall.le.trans ?_
    gcongr

end Cut

theorem Faithful.of_magnitude {s : Sign} {r q : ℝ} {u : UnpackedFloat} (hu : Canonical u)
    (hfu : u.isFinite = true) (hvalue : partsValue u = signed s q)
    (hupper : ∀ v, Canonical v → v.isFinite = true → r ≤ partsValue v → q ≤ partsValue v)
    (hlower : ∀ v, Canonical v → v.isFinite = true → partsValue v ≤ r → partsValue v ≤ q) :
    Faithful (signed s r) u where
  canonical := hu
  number := (faithful_self hu hfu).number
  upper v hv hfv h := by
    refine unpackedRank_le hu hv hfu hfv ?_
    rw [hvalue]
    cases s with
    | positive => exact hupper v hv hfv h
    | negative =>
      have hneg := hlower v.neg (canonical_neg hv) ((isFinite_neg v).trans hfv)
      rw [partsValue_neg] at hneg
      simp only [signed] at h ⊢
      linarith [hneg (by linarith)]
  lower v hv hfv h := by
    refine unpackedRank_le hv hu hfv hfu ?_
    rw [hvalue]
    cases s with
    | positive => exact hlower v hv hfv h
    | negative =>
      have hneg := hupper v.neg (canonical_neg hv) ((isFinite_neg v).trans hfv)
      rw [partsValue_neg] at hneg
      simp only [signed] at h ⊢
      linarith [hneg (by linarith)]

theorem faithful_roundWithAccuracy (s : Sign) {m : Nat} {e : Int} (hm : 2 ^ 52 ≤ m ∨ e ≤ -1074) :
    Faithful (signed s (m * 2 ^ e))
      (repack (roundWithAccuracy Format.binary64 s m e .exact)) := by
  obtain ⟨t, ht⟩ : ∃ t : Int, t = max (m.log2 + e - 52) (-1074) := ⟨_, rfl⟩
  have hlog : 2 ^ 52 ≤ m → 52 ≤ m.log2 := fun h => (Nat.le_log2 (by omega)).2 h
  have het : e ≤ t := by
    rcases hm with h | h
    · have := hlog h
      omega
    · omega
  obtain ⟨n, hfloor, hceil, hexact, hround⟩ := roundWithAccuracy_eq ht het s .exact
  have hexact := hexact rfl
  have hshort := cut_lt ht het
  have hlong := or_iff_not_imp_left.2 (le_cut ht het)
  rw [hround]
  obtain ⟨k, rfl⟩ : ∃ k : Nat, t = e + k := ⟨(t - e).toNat, by omega⟩
  rw [show (e + k - e).toNat = k by omega] at hfloor hceil hexact hshort hlong
  have hn : n ≤ 2 ^ 53 := by omega
  have hstep : (n : ℝ) * 2 ^ (e + k) = n * 2 ^ k * 2 ^ e := by
    rw [add_comm, zpow_add₀ two_ne_zero, zpow_natCast, mul_assoc]
  have hupper : ∀ v, Canonical v → v.isFinite = true → (m : ℝ) * 2 ^ e ≤ partsValue v →
      (n : ℝ) * 2 ^ (e + k) ≤ partsValue v := by
    intro v hv hfv h
    rw [hstep]
    exact rounded_le hv hfv hlong hexact h
  have hlower : ∀ v, Canonical v → v.isFinite = true → partsValue v ≤ (m : ℝ) * 2 ^ e →
      partsValue v ≤ (n : ℝ) * 2 ^ (e + k) := by
    intro v hv hfv h
    rw [hstep]
    exact le_rounded hv hfv hlong hfloor h
  by_cases hhigh : e + k ≤ 970 ∨ e + k = 971 ∧ n < 2 ^ 53
  · have hcanonical : Canonical (carried s n (e + k)) :=
      canonical_carried (by omega) hhigh (hlong.imp_right hfloor.trans')
    rw [repack_eq hcanonical]
    exact .of_magnitude hcanonical isFinite_carried (partsValue_carried hn) hupper hlower
  · have hnormal : 2 ^ 52 ≤ n := (hlong.resolve_left (by omega)).trans hfloor
    rw [repack_carried_of_overflow hhigh hnormal]
    refine faithful_infinity fun v hv hfv => ?_
    by_contra hle
    have hlarge : (2 : ℝ) ^ (1024 : Int) ≤ n * 2 ^ (e + k) := by
      have hsplit : ∀ j : Int, (2 : ℝ) ^ (1024 : Int) = 2 ^ (1024 - j) * 2 ^ j := by
        intro j
        rw [← zpow_add₀ two_ne_zero, Int.sub_add_cancel]
      rcases lt_or_ge (e + k) 972 with hlt | hge
      · obtain rfl : n = 2 ^ 53 := by omega
        rw [show e + k = 971 by omega, hsplit 971]
        norm_num
      · have hmantissa : (2 : ℝ) ^ (52 : Int) ≤ n := by exact_mod_cast hnormal
        rw [hsplit 972]
        exact mul_le_mul hmantissa (two_zpow_le hge) (two_zpow_pos _).le (Nat.cast_nonneg n)
    linarith [hupper v hv hfv (not_lt.1 hle), partsValue_lt_two_pow hv hfv]

theorem faithful_round (s : Sign) {m : Nat} (hm : 0 < m) (e : Int) :
    Faithful (signed s (m * 2 ^ e)) (repack (round Format.binary64 s m e)) := by
  obtain ⟨k, hround, hlong⟩ := round_eq s hm e
  rw [hround, ← shiftLeft_zpow m k e]
  exact faithful_roundWithAccuracy s hlong

theorem faithful_add (ha : a.isFinite = true) (hb : b.isFinite = true) :
    Faithful (value a + value b) (a + b).toModel.unpack :=
  add_cases faithful_repack faithful_round (canonical_unpack a) (canonical_unpack b) ha hb

theorem faithful_sub (ha : a.isFinite = true) (hb : b.isFinite = true) :
    Faithful (value a - value b) (a - b).toModel.unpack := by
  have hdiff : (a - b).toModel.unpack = repack (UnpackedFloat.add Format.binary64
      a.toModel.unpack b.toModel.unpack.neg) := by
    rw [← sub_eq_add]
    rfl
  rw [hdiff, sub_eq_add_neg, value, value, ← partsValue_neg]
  exact add_cases faithful_repack faithful_round (canonical_unpack a)
    (canonical_neg (canonical_unpack b)) ha ((isFinite_neg _).trans hb)

section Order

variable {x : Float} {r : ℝ}

theorem Faithful.le (h : Faithful r x.toModel.unpack) (hb : b.isFinite = true)
    (hr : r ≤ value b) : x ≤ b := by
  have hnb := isNaN_of_isFinite hb
  refine le_iff.2 ⟨h.number, hnb, ?_⟩
  rw [rank_eq h.number, rank_eq hnb]
  exact h.upper _ (canonical_unpack b) hb hr

theorem Faithful.ge (h : Faithful r x.toModel.unpack) (ha : a.isFinite = true)
    (hr : value a ≤ r) : a ≤ x := by
  have hna := isNaN_of_isFinite ha
  refine le_iff.2 ⟨hna, h.number, ?_⟩
  rw [rank_eq h.number, rank_eq hna]
  exact h.lower _ (canonical_unpack a) ha hr

def least : Float := .ofBits 1

theorem value_least : value least = underflow := by
  rw [value_eq_ticks, show ticks least = 1 by decide, Int.cast_one, one_mul]

theorem value_neg_least : value (-least) = -underflow := by
  rw [value_eq_ticks, show ticks (-least) = -1 by decide, Int.cast_neg, Int.cast_one,
    neg_one_mul]

theorem one_le_of_pos {n : ℤ} (h : 0 < (n : ℝ) * underflow) : underflow ≤ n * underflow := by
  have hn : 0 < n := by exact_mod_cast (pos_iff_pos_of_mul_pos h).2 underflow_pos
  have hone : (1 : ℝ) ≤ n := by exact_mod_cast hn
  exact le_mul_of_one_le_left underflow_pos.le hone

theorem Faithful.pos_iff {n : ℤ} (h : Faithful (n * underflow) x.toModel.unpack) :
    0 < x ↔ 0 < (n : ℝ) * underflow := by
  constructor
  · intro hx
    by_contra hr
    have hle := h.le (b := 0) (by decide) (by simpa using not_lt.1 hr)
    exact absurd (lt_iff.1 hx).2.2 (not_lt.2 (le_iff.1 hle).2.2)
  · intro hr
    have hle := le_iff.1 (h.ge (a := least) (by decide) (value_least ▸ one_le_of_pos hr))
    have hpos : rank 0 < rank least := by decide
    exact lt_iff.2 ⟨isNaN_zero, hle.2.1, hpos.trans_le hle.2.2⟩

theorem Faithful.neg_iff {n : ℤ} (h : Faithful (n * underflow) x.toModel.unpack) :
    x < 0 ↔ (n : ℝ) * underflow < 0 := by
  constructor
  · intro hx
    by_contra hr
    have hle := h.ge (a := 0) (by decide) (by simpa using not_lt.1 hr)
    exact absurd (lt_iff.1 hx).2.2 (not_lt.2 (le_iff.1 hle).2.2)
  · intro hr
    have hsteps := one_le_of_pos (n := -n) (by push_cast; linarith)
    push_cast at hsteps
    have hle := le_iff.1 (h.le (b := -least) (by decide) (by
      rw [value_neg_least]
      linarith))
    have hneg : rank (-least) < rank 0 := by decide
    exact lt_iff.2 ⟨hle.1, isNaN_zero, hle.2.2.trans_lt hneg⟩

end Order

section Magnitude

theorem canonical_abs {u : UnpackedFloat} (h : Canonical u) : Canonical u.abs := by
  cases u with
  | finite s m e hm => exact h
  | _ => trivial

theorem partsValue_abs (u : UnpackedFloat) : partsValue u.abs = |partsValue u| := by
  cases u with
  | finite s m e hm =>
    have hmag : (0 : ℝ) ≤ m * 2 ^ e := mul_nonneg (Nat.cast_nonneg m) (two_zpow_pos e).le
    rw [UnpackedFloat.abs, partsValue_finite, partsValue_finite, abs_signed, abs_of_nonneg hmag]
    rfl
  | _ => simp [UnpackedFloat.abs, partsValue]

variable {x t : Float}

theorem unpack_abs (x : Float) : x.abs.toModel.unpack = x.toModel.unpack.abs :=
  repack_eq (canonical_abs (canonical_unpack x))

theorem unpack_neg (x : Float) : (-x).toModel.unpack = x.toModel.unpack.neg :=
  repack_eq (canonical_neg (canonical_unpack x))

theorem value_abs (x : Float) : value x.abs = |value x| := by
  rw [value, unpack_abs, partsValue_abs, value]

theorem value_neg (x : Float) : value (-x) = -value x := by
  rw [value, unpack_neg, partsValue_neg, value]

theorem value_neg_zero : value (-0) = 0 := by
  rw [value_neg, value_zero, neg_zero]

theorem isFinite_neg_iff : (-x).isFinite = x.isFinite := by
  rw [isFinite_eq, unpack_neg, isFinite_neg, isFinite_eq]

theorem isFinite_abs : x.abs.isFinite = x.isFinite := by
  rw [isFinite_eq, unpack_abs, isFinite_eq]
  cases x.toModel.unpack <;> rfl

theorem isNaN_abs : x.abs.isNaN = x.isNaN := by
  rw [isNaN_eq, unpack_abs, isNaN_eq]
  cases x.toModel.unpack <;> rfl

theorem isFinite_of_abs_lt (h : x.abs < t) (ht : t.isFinite = true) : x.isFinite = true := by
  have hnumber := (lt_iff.1 h).1
  rw [isNaN_eq, unpack_abs] at hnumber
  rw [isFinite_eq]
  cases hx : x.toModel.unpack with
  | notANumber => rw [hx] at hnumber; cases hnumber
  | infinity s => exact absurd h (not_lt_of_infinity (by rw [unpack_abs, hx, UnpackedFloat.abs]) ht)
  | _ => rfl

variable {a b : Float}

theorem abs_sub_lt (h : (a - b).abs < t) (ht : t.isFinite = true) :
    a.isFinite = true ∧ b.isFinite = true ∧ |value a - value b| < value t := by
  have hdiff := isFinite_of_abs_lt h ht
  obtain ⟨ha, hb⟩ := finite_of_sub hdiff
  have hfaithful := faithful_sub ha hb
  have habs : |value (a - b)| < value t := by
    rw [← value_abs]
    exact value_lt_of_lt h (by rwa [isFinite_abs]) ht
  obtain ⟨hlow, hhigh⟩ := abs_lt.1 habs
  refine ⟨ha, hb, abs_lt.2 ⟨?_, ?_⟩⟩
  · by_contra hle
    have hfar := hfaithful.le (b := -t) (by rwa [isFinite_neg_iff]) (by rw [value_neg]; linarith)
    have := value_le_of_le hfar hdiff (by rwa [isFinite_neg_iff])
    rw [value_neg] at this
    linarith
  · by_contra hle
    have hfar := hfaithful.ge ht (not_lt.1 hle)
    linarith [value_le_of_le hfar ht hdiff]

end Magnitude
end Toolpath.Number
