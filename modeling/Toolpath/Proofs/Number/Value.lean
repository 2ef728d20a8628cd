import Toolpath.Proofs.Number.Order

/-!
# The values of numbers

The real number that a double stands for, and how the order of doubles follows it. Parts that a
double can hold survive being packed.
-/

namespace Toolpath.Number

open Float.Model
open Float.Model.UnpackedFloat

/-- The real number with these parts. Infinities and what is not a number count as zero. -/
noncomputable def partsValue : UnpackedFloat → ℝ
  | .finite s m e _ => s.apply m * 2 ^ e
  | _ => 0

noncomputable def value (x : Float) : ℝ := partsValue x.toModel.unpack

/-- A unit in the last place is at most this part of the number. -/
noncomputable def roundoff : ℝ := 2 ^ (-52 : Int)

/-- The least positive double. -/
noncomputable def underflow : ℝ := 2 ^ (-1074 : Int)

/-- No number of at most this magnitude is too large for a double. -/
noncomputable def overflow : ℝ := 2 ^ (1023 : Int)

/-- The squares of numbers well above this one are clear of underflow. -/
noncomputable def grain : ℝ := 2 ^ (-533 : Int)

theorem canonical_unpack (x : Float) : Canonical x.toModel.unpack := (unpack_parts _).1

theorem isFinite_eq (x : Float) : x.isFinite = x.toModel.unpack.isFinite := rfl

theorem isNaN_eq (x : Float) : x.isNaN = x.toModel.unpack.isNaN := rfl

theorem isNaN_of_isFinite {x : Float} (h : x.isFinite = true) : x.isNaN = false := by
  rw [isFinite_eq] at h
  rw [isNaN_eq]
  cases hx : x.toModel.unpack <;> simp_all [UnpackedFloat.isFinite, UnpackedFloat.isNaN]

theorem isFinite_iff {x : Float} : x.isFinite = true ↔
    x.isNaN = false ∧ -(2047 * 2 ^ 52) < rank x ∧ rank x < 2047 * 2 ^ 52 := by
  have hcanonical := canonical_unpack x
  constructor
  · intro h
    have hn := isNaN_of_isFinite h
    refine ⟨hn, ?_⟩
    rw [rank_eq hn]
    rw [isFinite_eq] at h
    cases hx : x.toModel.unpack with
    | infinity s =>
      rw [hx] at h
      cases h
    | finite s m e hm =>
      rw [hx] at hcanonical
      obtain ⟨hm, he, he', -⟩ := hcanonical
      cases s <;> simp only [unpackedRank, Sign.apply] <;> omega
    | _ => simp [unpackedRank]
  · rintro ⟨hn, hlow, hhigh⟩
    rw [rank_eq hn] at hlow hhigh
    rw [isNaN_eq] at hn
    rw [isFinite_eq]
    cases hx : x.toModel.unpack with
    | infinity s =>
      rw [hx] at hlow hhigh
      cases s <;> simp [unpackedRank, Sign.apply] at hlow hhigh
    | notANumber =>
      rw [hx] at hn
      cases hn
    | _ => rfl

theorem isFinite_of_le {a b x : Float} (ha : a.isFinite = true) (hb : b.isFinite = true)
    (hax : a ≤ x) (hxb : x ≤ b) : x.isFinite = true := by
  rw [isFinite_iff] at ha hb ⊢
  rw [le_iff] at hax hxb
  exact ⟨hax.2.1, by omega, by omega⟩

theorem value_of_unpack {x : Float} (s : Sign) (m : Nat) (e : Int) (hm : 0 < m)
    (h : x.toModel.unpack = .finite s m e hm) : value x = s.apply m * 2 ^ e := by
  rw [value, h, partsValue]

theorem value_of_unpack_two_pow {x : Float} (s : Sign) (k : Nat) (e : Int)
    (h : x.toModel.unpack = .finite s (2 ^ k) e (Nat.two_pow_pos k)) :
    value x = s.apply 1 * 2 ^ (k + e) := by
  rw [value_of_unpack s (2 ^ k) e (Nat.two_pow_pos k) h, zpow_add₀ two_ne_zero, zpow_natCast]
  cases s <;> simp [Sign.apply]

section Order

theorem two_zpow_pos (e : Int) : (0 : ℝ) < 2 ^ e := zpow_pos two_pos e

theorem two_zpow_le {e f : Int} (h : e ≤ f) : (2 : ℝ) ^ e ≤ 2 ^ f :=
  zpow_le_zpow_right₀ one_le_two h

theorem two_zpow_succ (e : Int) : (2 : ℝ) ^ (e + 1) = 2 * 2 ^ e := by
  rw [zpow_add_one₀ two_ne_zero, mul_comm]

theorem roundoff_pos : 0 < roundoff := two_zpow_pos _

theorem underflow_pos : 0 < underflow := two_zpow_pos _

theorem grain_pos : 0 < grain := two_zpow_pos _

theorem magnitude_lt {m n : Nat} {e f : Int} (hm : m < 2 ^ 53) (he : e = -1074 ∨ 2 ^ 52 ≤ m)
    (hn : n < 2 ^ 53) (hf : f = -1074 ∨ 2 ^ 52 ≤ n) (hf' : -1074 ≤ f) (he' : -1074 ≤ e)
    (h : (e + 1074) * 2 ^ 52 + m < (f + 1074) * 2 ^ 52 + n) :
    (m : ℝ) * 2 ^ e < n * 2 ^ f := by
  rcases lt_trichotomy e f with hlt | rfl | hgt
  · have hn : (2 ^ 52 : ℝ) ≤ n := by exact_mod_cast (show 2 ^ 52 ≤ n by omega)
    have hm : (m : ℝ) < 2 ^ 53 := by exact_mod_cast hm
    calc (m : ℝ) * 2 ^ e < 2 ^ 53 * 2 ^ e := by
          exact mul_lt_mul_of_pos_right hm (two_zpow_pos e)
      _ = 2 ^ 52 * 2 ^ (e + 1) := by rw [two_zpow_succ]; ring
      _ ≤ n * 2 ^ f := mul_le_mul hn (two_zpow_le hlt) (two_zpow_pos _).le (Nat.cast_nonneg n)
  · have hmn : (m : ℝ) < n := by exact_mod_cast (show m < n by omega)
    exact mul_lt_mul_of_pos_right hmn (two_zpow_pos e)
  · omega

theorem partsValue_lt {u v : UnpackedFloat} (hu : Canonical u) (hv : Canonical v)
    (hfu : u.isFinite = true) (hfv : v.isFinite = true) (h : unpackedRank u < unpackedRank v) :
    partsValue u < partsValue v := by
  have hpos : ∀ {m : Nat} (e : Int), 0 < m → (0 : ℝ) < m * 2 ^ e := fun e hm =>
    mul_pos (Nat.cast_pos.2 hm) (two_zpow_pos e)
  cases u with
  | notANumber => cases hfu
  | infinity s => cases hfu
  | zero s =>
    cases v with
    | notANumber => cases hfv
    | infinity t => cases hfv
    | zero t => exact absurd h (lt_irrefl _)
    | finite t n f hn =>
      obtain ⟨-, hf, -⟩ := hv
      cases t with
      | negative =>
        simp only [unpackedRank, Sign.apply] at h
        omega
      | positive => simpa [partsValue, Sign.apply] using hpos f hn
  | finite s m e hm =>
    obtain ⟨hm', he, -, hem⟩ := hu
    cases v with
    | notANumber => cases hfv
    | infinity t => cases hfv
    | zero t =>
      cases s with
      | negative => simpa [partsValue, Sign.apply] using hpos e hm
      | positive =>
        simp only [unpackedRank, Sign.apply] at h
        omega
    | finite t n f hn =>
      obtain ⟨hn', hf, -, hfn⟩ := hv
      cases s <;> cases t <;>
        simp only [unpackedRank, partsValue, Sign.apply, Int.cast_neg, Int.cast_natCast, neg_mul]
          at h ⊢
      · exact neg_lt_neg (magnitude_lt hn' hfn hm' hem he hf (by omega))
      · linarith [hpos e hm, hpos f hn]
      · omega
      · exact magnitude_lt hm' hem hn' hfn hf he h

variable {a b : Float}

theorem value_eq_zero_of_rank (h : rank a = 0) (hfin : a.isFinite = true) : value a = 0 := by
  rw [rank_eq (isNaN_of_isFinite hfin)] at h
  have hcanonical := canonical_unpack a
  unfold value
  cases ha : a.toModel.unpack with
  | finite s m e hm =>
    rw [ha] at h hcanonical
    obtain ⟨-, he, -⟩ := hcanonical
    cases s <;> simp only [unpackedRank, Sign.apply] at h <;> omega
  | _ => rfl

theorem value_lt_of_lt (h : a < b) (ha : a.isFinite = true) (hb : b.isFinite = true) :
    value a < value b := by
  obtain ⟨hna, hnb, hrank⟩ := lt_iff.1 h
  rw [rank_eq hna, rank_eq hnb] at hrank
  exact partsValue_lt (canonical_unpack a) (canonical_unpack b) ha hb hrank

theorem value_lt_of_not_le (h : ¬ a ≤ b) (ha : a.isFinite = true) (hb : b.isFinite = true) :
    value b < value a :=
  value_lt_of_lt (lt_of_not_le (isNaN_of_isFinite ha) (isNaN_of_isFinite hb) h) hb ha

theorem value_eq_of_rank_eq (h : rank a = rank b) (ha : a.isFinite = true)
    (hb : b.isFinite = true) : value a = value b := by
  by_cases h0 : rank a = 0
  · rw [value_eq_zero_of_rank h0 ha, value_eq_zero_of_rank (h ▸ h0) hb]
  · rw [eq_of_rank_eq h h0]

theorem value_eq_of_beq (h : (a == b) = true) (ha : a.isFinite = true) (hb : b.isFinite = true) :
    value a = value b :=
  value_eq_of_rank_eq (beq_iff.1 h).2.2 ha hb

theorem value_le_of_le (h : a ≤ b) (ha : a.isFinite = true) (hb : b.isFinite = true) :
    value a ≤ value b := by
  obtain ⟨hna, hnb, hrank⟩ := le_iff.1 h
  rcases hrank.lt_or_eq with hlt | heq
  · exact (value_lt_of_lt (lt_iff.2 ⟨hna, hnb, hlt⟩) ha hb).le
  · exact (value_eq_of_rank_eq heq ha hb).le

@[simp] theorem value_zero : value 0 = 0 := value_eq_zero_of_rank rank_zero (by decide)

theorem value_pos (h : 0 < a) (ha : a.isFinite = true) : 0 < value a := by
  simpa using value_lt_of_lt h (by decide) ha

end Order

section Packing

theorem ofBitVec_unpackSign_packComponents {s : Sign} {e : BitVec 11} {m : BitVec 52} :
    Sign.ofBitVec (unpackSign (packComponents Format.binary64 s e m)) = s := by
  simp only [unpackSign, packComponents, BitVec.extractLsb]
  rw [BitVec.extractLsb'_append_eq_of_le (by omega),
    BitVec.extractLsb'_append_eq_of_le (by omega)]
  cases s <;> rfl

theorem unpack_components (s : Sign) (e : BitVec 11) (m : BitVec 52) :
    UnpackedFloat.unpack Format.binary64 (packComponents Format.binary64 s e m) =
      if e = -1#_ then if m = 0#_ then .infinity s else .notANumber
      else if e = 0#_ then
        if h : m = 0#_ then .zero s
        else .finite s m.toNat (-1074) (by simpa [BitVec.toNat_pos, BitVec.pos_iff_ne_zero])
      else .finite s (1#1 ++ m).toNat (e.toNat - 1075) (by rw [toNat_leading_bit]; omega) := by
  unfold UnpackedFloat.unpack
  simp only [unpackMantissa_packComponents, unpackExponent_packComponents,
    ofBitVec_unpackSign_packComponents, exponentBias_binary64]
  split_ifs with h1 h2 h3 h4
  · rfl
  · rfl
  · rfl
  · subst h3
    rfl
  · norm_num

/-- What is left of parts that went through the format of doubles. -/
def repack (u : UnpackedFloat) : UnpackedFloat :=
  UnpackedFloat.unpack Format.binary64 (UnpackedFloat.pack Format.binary64 u)

theorem repack_eq {u : UnpackedFloat} (h : Canonical u) : repack u = u := by
  unfold repack
  cases u with
  | notANumber => rfl
  | infinity s => cases s <;> rfl
  | zero s => cases s <;> rfl
  | finite s m e hm =>
    obtain ⟨hm', he, he', hem⟩ := h
    have hexponent : (e + (Format.binary64.exponentBias : Nat) + (52 : Nat)).toNat =
        (e + 1075).toNat := by
      rw [exponentBias_binary64]
      omega
    have hne : BitVec.ofNat 11 (e + 1075).toNat ≠ -1#11 := by
      intro heq
      have := congrArg BitVec.toNat heq
      simp at this
      omega
    have hne0 : BitVec.ofNat 11 (e + 1075).toNat ≠ 0#11 := by
      intro heq
      have := congrArg BitVec.toNat heq
      simp at this
      omega
    unfold UnpackedFloat.pack
    simp only [hexponent]
    rw [if_neg (by omega)]
    by_cases hnormal : 2 ^ 52 ≤ m
    · have hlog : m.log2 = 52 := (Nat.log2_eq_iff (by omega)).2 ⟨hnormal, hm'⟩
      rw [if_pos (by rw [hlog]; rfl), unpack_components, if_neg hne, if_neg hne0]
      have hmantissa : (1#1 ++ BitVec.ofNat 52 m).toNat = m := by
        rw [toNat_leading_bit, BitVec.toNat_ofNat]
        omega
      have : ((BitVec.ofNat 11 (e + 1075).toNat).toNat : Int) - 1075 = e := by
        rw [BitVec.toNat_ofNat]
        omega
      simp only [hmantissa, this]
    · obtain rfl : e = -1074 := by omega
      have hlog : m.log2 < 52 := (Nat.log2_lt (by omega)).2 (by omega)
      have hmantissa : (BitVec.ofNat 52 m).toNat = m := by
        rw [BitVec.toNat_ofNat, Nat.mod_eq_of_lt (by omega)]
      have hne : BitVec.ofNat 52 m ≠ 0#52 := by
        intro heq
        have := congrArg BitVec.toNat heq
        rw [hmantissa] at this
        simp at this
        omega
      rw [if_neg (by simp only [Format.mantissaBits]; omega), unpack_components,
        if_neg (by decide), if_pos rfl, dif_neg hne]
      simp only [hmantissa]

theorem repack_of_overflow {s : Sign} {m : Nat} {e : Int} (hm : 0 < m) (he : 972 ≤ e) :
    repack (.finite s m e hm) = .infinity s := by
  unfold repack UnpackedFloat.pack
  dsimp only
  rw [if_pos (by rw [exponentBias_binary64]; omega), packedInfinity, unpack_components,
    if_pos rfl]
  exact if_pos rfl

end Packing

end Toolpath.Number
