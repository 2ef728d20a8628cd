import Mathlib
import Toolpath.Number.Arithmetic

/-!
# The order of numbers

Doubles that are numbers lie in the order of their ranks, which are integers. Zeros of either sign
share a rank, and all other numbers have one of their own.
-/

namespace Toolpath.Number

open Float.Model
open Float.Model.UnpackedFloat

/-- The bits as a signed magnitude. -/
def rank (x : Float) : Int :=
  if x.toBits.toNat < 2 ^ 63 then (x.toBits.toNat : Int) else 2 ^ 63 - (x.toBits.toNat : Int)

theorem toNat_unpackMantissa (b : BitVec Format.binary64.numBits) :
    (unpackMantissa b).toNat = b.toNat % 2 ^ 52 := by
  simp [unpackMantissa]

theorem toNat_unpackExponent (b : BitVec Format.binary64.numBits) :
    (unpackExponent b).toNat = b.toNat / 2 ^ 52 % 2 ^ 11 := by
  simp [unpackExponent, Nat.shiftRight_eq_div_pow]

theorem toNat_unpackSign (b : BitVec Format.binary64.numBits) :
    (unpackSign b).toNat = b.toNat / 2 ^ 63 % 2 := by
  simp [unpackSign, Nat.shiftRight_eq_div_pow]

theorem apply_unpackSign (b : BitVec Format.binary64.numBits) (n : Int) :
    (Sign.ofBitVec (unpackSign b)).apply n = if b.toNat < 2 ^ 63 then n else -n := by
  have hb : b.toNat < 2 ^ 64 := b.isLt
  have hs := toNat_unpackSign b
  unfold Sign.ofBitVec
  by_cases h : b.toNat < 2 ^ 63
  · have h0 : unpackSign b = 0#1 := BitVec.eq_of_toNat_eq (by rw [hs]; simp; omega)
    rw [if_pos h0, if_pos h]
    rfl
  · have h0 : unpackSign b ≠ 0#1 := by
      intro h0
      rw [h0] at hs
      simp at hs
      omega
    rw [if_neg h0, if_neg h]
    rfl

def unpackedRank : UnpackedFloat → Int
  | .notANumber => 0
  | .infinity s => s.apply (2047 * 2 ^ 52)
  | .zero _ => 0
  | .finite s m e _ => s.apply ((e + 1074) * 2 ^ 52 + m)

/-- The parts that unpacking gives. All doubles with the least exponent but the subnormal ones
have a leading bit. -/
def Canonical : UnpackedFloat → Prop
  | .finite _ m e _ => m < 2 ^ 53 ∧ -1074 ≤ e ∧ e ≤ 971 ∧ (e = -1074 ∨ 2 ^ 52 ≤ m)
  | _ => True

theorem toNat_leading_bit (v : BitVec 52) : (1#1 ++ v).toNat = 2 ^ 52 + v.toNat := by
  have h := Nat.two_pow_add_eq_or_of_lt v.isLt 1
  simp only [BitVec.toNat_append, BitVec.toNat_ofNat, Nat.shiftLeft_eq, Nat.one_mod,
    Nat.one_mul, Nat.mul_one, Nat.pow_one] at h ⊢
  omega

theorem exponentBias_binary64 : Format.binary64.exponentBias = 1023 := rfl

theorem unpack_parts (b : BitVec Format.binary64.numBits) :
    Canonical (UnpackedFloat.unpack Format.binary64 b) ∧
      ((UnpackedFloat.unpack Format.binary64 b).isNaN = false →
        unpackedRank (UnpackedFloat.unpack Format.binary64 b) =
          if b.toNat < 2 ^ 63 then (b.toNat : Int) else 2 ^ 63 - (b.toNat : Int)) := by
  have hb : b.toNat < 2 ^ 64 := b.isLt
  have he := toNat_unpackExponent b
  have hm := toNat_unpackMantissa b
  have hsign := apply_unpackSign b
  unfold UnpackedFloat.unpack
  dsimp only
  split
  · rename_i htop
    rw [htop] at he
    split
    · rename_i hzero
      rw [hzero] at hm
      simp only [Canonical, unpackedRank, hsign, true_and]
      intro _
      simp at he hm
      split <;> omega
    · simp [Canonical, UnpackedFloat.isNaN]
  · rename_i htop
    have htop' : (unpackExponent b).toNat ≠ 2047 := fun h =>
      htop (BitVec.eq_of_toNat_eq (by rw [h]; rfl))
    split
    · rename_i hlow
      rw [hlow] at he
      split
      · rename_i hzero
        rw [hzero] at hm
        simp only [Canonical, unpackedRank, true_and]
        intro _
        simp at he hm
        split <;> omega
      · simp only [Canonical, unpackedRank, hsign, hlow, exponentBias_binary64]
        simp at he
        refine ⟨by simp; omega, fun _ => ?_⟩
        simp
        split <;> omega
    · rename_i hlow
      have hlow' : (unpackExponent b).toNat ≠ 0 := fun h =>
        hlow (BitVec.eq_of_toNat_eq (by rw [h]; rfl))
      simp only [Canonical, unpackedRank, hsign, toNat_leading_bit, exponentBias_binary64]
      refine ⟨by omega, fun _ => ?_⟩
      split <;> omega

/-- Among doubles with the same exponent the mantissas decide. -/
theorem compare_parts {m n : Nat} {e f : Int} (hm : m < 2 ^ 53) (hn : n < 2 ^ 53)
    (he : e = -1074 ∨ 2 ^ 52 ≤ m) (hf : f = -1074 ∨ 2 ^ 52 ≤ n) (he' : -1074 ≤ e)
    (hf' : -1074 ≤ f) :
    (compare e f).then (compare m n) =
      compare ((e + 1074) * 2 ^ 52 + m : Int) ((f + 1074) * 2 ^ 52 + n) := by
  rcases lt_trichotomy e f with h | rfl | h
  · rw [compare_lt_iff_lt.2 h, eq_comm, Ordering.lt_then, compare_lt_iff_lt]
    omega
  · rw [compare_eq_iff_eq.2 rfl, Ordering.eq_then]
    rcases lt_trichotomy m n with h | rfl | h
    · rw [compare_lt_iff_lt.2 h, eq_comm, compare_lt_iff_lt]
      omega
    · rw [compare_eq_iff_eq.2 rfl, compare_eq_iff_eq.2 rfl]
    · rw [compare_gt_iff_gt.2 h, eq_comm, compare_gt_iff_gt]
      omega
  · rw [compare_gt_iff_gt.2 h, eq_comm, Ordering.gt_then, compare_gt_iff_gt]
    omega

theorem swap_compare (x y : Int) : (compare x y).swap = compare (-x) (-y) := by
  rcases lt_trichotomy x y with h | rfl | h
  · rw [compare_lt_iff_lt.2 h, eq_comm, Ordering.swap, compare_gt_iff_gt]
    omega
  · simp
  · rw [compare_gt_iff_gt.2 h, eq_comm, Ordering.swap, compare_lt_iff_lt]
    omega

theorem compare_unpacked {a b : UnpackedFloat} (ha : Canonical a) (hb : Canonical b)
    (hna : a.isNaN = false) (hnb : b.isNaN = false) :
    a.compare b = some (compare (unpackedRank a) (unpackedRank b)) := by
  have hlt : ∀ {x y : Int}, x < y → some Ordering.lt = some (compare x y) := by
    intro x y h
    rw [compare_lt_iff_lt.2 h]
  have hgt : ∀ {x y : Int}, y < x → some Ordering.gt = some (compare x y) := by
    intro x y h
    rw [compare_gt_iff_gt.2 h]
  cases a with
  | notANumber => cases hna
  | infinity s =>
    cases b with
    | notANumber => cases hnb
    | infinity t => cases s <;> cases t <;> rfl
    | zero t => cases s <;> rfl
    | finite t n f hn =>
      simp only [Canonical] at hb
      cases s <;> cases t <;> simp only [UnpackedFloat.compare, unpackedRank, Sign.apply] <;>
        first | (apply hlt; omega) | (apply hgt; omega)
  | zero s =>
    cases b with
    | notANumber => cases hnb
    | infinity t => cases t <;> rfl
    | zero t => rfl
    | finite t n f hn =>
      simp only [Canonical] at hb
      cases t <;> simp only [UnpackedFloat.compare, unpackedRank, Sign.apply] <;>
        first | (apply hlt; omega) | (apply hgt; omega)
  | finite s m e hm =>
    simp only [Canonical] at ha
    cases b with
    | notANumber => cases hnb
    | infinity t =>
      cases s <;> cases t <;> simp only [UnpackedFloat.compare, unpackedRank, Sign.apply] <;>
        first | (apply hlt; omega) | (apply hgt; omega)
    | zero t =>
      cases s <;> simp only [UnpackedFloat.compare, unpackedRank, Sign.apply] <;>
        first | (apply hlt; omega) | (apply hgt; omega)
    | finite t n f hn =>
      simp only [Canonical] at hb
      have hc := compare_parts ha.1 hb.1 ha.2.2.2 hb.2.2.2 ha.2.1 hb.2.1
      cases s <;> cases t <;> simp only [UnpackedFloat.compare, unpackedRank, Sign.apply]
      · rw [hc, swap_compare]
      · apply hlt
        omega
      · apply hgt
        omega
      · rw [hc]

theorem rank_eq {x : Float} (h : x.isNaN = false) : rank x = unpackedRank x.toModel.unpack :=
  ((unpack_parts x.toModel.toBits.toBitVec).2 h).symm

theorem compare_toModel {a b : Float} (ha : a.isNaN = false) (hb : b.isNaN = false) :
    a.toModel.unpack.compare b.toModel.unpack = some (compare (rank a) (rank b)) := by
  rw [rank_eq ha, rank_eq hb]
  exact compare_unpacked (unpack_parts _).1 (unpack_parts _).1 ha hb

theorem compare_toModel_of_isNaN {a b : Float} (h : a.isNaN = true ∨ b.isNaN = true) :
    a.toModel.unpack.compare b.toModel.unpack = none := by
  change a.toModel.unpack.isNaN = true ∨ b.toModel.unpack.isNaN = true at h
  generalize a.toModel.unpack = u at *
  generalize b.toModel.unpack = v at *
  cases u with
  | notANumber => rfl
  | _ =>
    cases v with
    | notANumber => rfl
    | _ => simp [UnpackedFloat.isNaN] at h

theorem lt_iff {a b : Float} : a < b ↔ a.isNaN = false ∧ b.isNaN = false ∧ rank a < rank b := by
  have hd : a < b ↔ (a.toModel.unpack.compare b.toModel.unpack == some .lt) = true :=
    decide_eq_true_iff
  by_cases h : a.isNaN = true ∨ b.isNaN = true
  · rw [hd, compare_toModel_of_isNaN h]
    grind
  · simp only [not_or, Bool.not_eq_true] at h
    rw [hd, compare_toModel h.1 h.2, and_iff_right h.1, and_iff_right h.2]
    simp [compare_lt_iff_lt]

theorem le_iff {a b : Float} : a ≤ b ↔ a.isNaN = false ∧ b.isNaN = false ∧ rank a ≤ rank b := by
  have hd : a ≤ b ↔ (a.toModel.unpack.compare b.toModel.unpack).any (·.isLE) = true :=
    decide_eq_true_iff
  by_cases h : a.isNaN = true ∨ b.isNaN = true
  · rw [hd, compare_toModel_of_isNaN h]
    grind
  · simp only [not_or, Bool.not_eq_true] at h
    rw [hd, compare_toModel h.1 h.2, and_iff_right h.1, and_iff_right h.2]
    simp [Ordering.isLE_iff_ne_gt, compare_gt_iff_gt]

theorem beq_iff {a b : Float} :
    (a == b) = true ↔ a.isNaN = false ∧ b.isNaN = false ∧ rank a = rank b := by
  have hd : (a == b) = (a.toModel.unpack.compare b.toModel.unpack == some .eq) := rfl
  by_cases h : a.isNaN = true ∨ b.isNaN = true
  · rw [hd, compare_toModel_of_isNaN h]
    grind
  · simp only [not_or, Bool.not_eq_true] at h
    rw [hd, compare_toModel h.1 h.2, and_iff_right h.1, and_iff_right h.2]
    simp

theorem beq_self {a : Float} (h : a.isNaN = false) : (a == a) = true :=
  beq_iff.2 ⟨h, h, rfl⟩

theorem beq_symm {a b : Float} (h : (a == b) = true) : (b == a) = true := by
  obtain ⟨ha, hb, hrank⟩ := beq_iff.1 h
  exact beq_iff.2 ⟨hb, ha, hrank.symm⟩

theorem beq_trans {a b c : Float} (hab : (a == b) = true) (hbc : (b == c) = true) :
    (a == c) = true := by
  rw [beq_iff] at hab hbc ⊢
  exact ⟨hab.1, hbc.2.1, hab.2.2.trans hbc.2.2⟩

theorem le_of_beq {a b : Float} (h : (a == b) = true) : a ≤ b := by
  obtain ⟨ha, hb, hrank⟩ := beq_iff.1 h
  exact le_iff.2 ⟨ha, hb, hrank.le⟩

theorem lt_of_not_le {a b : Float} (ha : a.isNaN = false) (hb : b.isNaN = false) (h : ¬ a ≤ b) :
    b < a := by
  rw [le_iff, and_iff_right ha, and_iff_right hb] at h
  exact lt_iff.2 ⟨hb, ha, not_le.1 h⟩

theorem le_of_not_lt {a b : Float} (ha : a.isNaN = false) (hb : b.isNaN = false) (h : ¬ a < b) :
    b ≤ a := by
  rw [lt_iff, and_iff_right ha, and_iff_right hb] at h
  exact le_iff.2 ⟨hb, ha, not_lt.1 h⟩

protected theorem lt_of_le_of_lt {a b c : Float} (hab : a ≤ b) (hbc : b < c) : a < c := by
  rw [le_iff] at hab
  rw [lt_iff] at hbc ⊢
  exact ⟨hab.1, hbc.2.1, hab.2.2.trans_lt hbc.2.2⟩

theorem le_of_le_of_beq {a b c : Float} (hab : a ≤ b) (hbc : (b == c) = true) : a ≤ c := by
  rw [le_iff] at hab ⊢
  obtain ⟨-, hc, hrank⟩ := beq_iff.1 hbc
  exact ⟨hab.1, hc, by omega⟩

@[simp] theorem rank_zero : rank 0 = 0 := by decide

@[simp] theorem isNaN_zero : (0 : Float).isNaN = false := by decide

theorem eq_of_toBits_eq {a b : Float} (h : a.toBits = b.toBits) : a = b := by
  obtain ⟨⟨m, hm⟩⟩ := a
  obtain ⟨⟨n, hn⟩⟩ := b
  change m = n at h
  subst h
  rfl

theorem eq_of_rank_eq {a b : Float} (h : rank a = rank b) (h0 : rank a ≠ 0) : a = b := by
  have ha := a.toBits.toNat_lt
  have hb := b.toBits.toNat_lt
  apply eq_of_toBits_eq
  apply UInt64.toNat_inj.1
  unfold rank at h h0
  split at h <;> split at h <;> omega

theorem eq_of_beq_of_pos {a b : Float} (h : (a == b) = true) (ha : 0 < a) : a = b := by
  have hrank := (beq_iff.1 h).2.2
  have hpos := (lt_iff.1 ha).2.2
  rw [rank_zero] at hpos
  exact eq_of_rank_eq hrank hpos.ne'

section Extrema

variable {a b : Float}

theorem larger_eq (a b : Float) : larger a b = a ∨ larger a b = b := by
  unfold larger
  split
  · exact .inr rfl
  · exact .inl rfl

theorem smaller_eq (a b : Float) : smaller a b = a ∨ smaller a b = b := by
  unfold smaller
  split
  · exact .inr rfl
  · exact .inl rfl

theorem smaller_of_le (h : b ≤ a) : smaller a b = b := if_pos (.inr h)

theorem smaller_of_not_le (ha : a.isNaN = false) (h : ¬ b ≤ a) : smaller a b = a := by
  unfold smaller
  rw [ha, if_neg (by simpa using h)]

theorem beq_smaller {a' : Float} (h : (a == a') = true) (b : Float) :
    (smaller a b == smaller a' b) = true := by
  obtain ⟨ha, ha', -⟩ := beq_iff.1 h
  by_cases hb : b ≤ a
  · rw [smaller_of_le hb, smaller_of_le (le_of_le_of_beq hb h)]
    exact beq_self (le_iff.1 hb).1
  · have hb' : ¬ b ≤ a' := fun hle => hb (le_of_le_of_beq hle (beq_symm h))
    rwa [smaller_of_not_le ha hb, smaller_of_not_le ha' hb']

theorem smaller_beq_of_le (h : a ≤ b) : (smaller a b == a) = true := by
  obtain ⟨ha, hb, hrank⟩ := le_iff.1 h
  by_cases hle : b ≤ a
  · rw [smaller_of_le hle]
    exact beq_iff.2 ⟨hb, ha, le_antisymm (le_iff.1 hle).2.2 hrank⟩
  · rw [smaller_of_not_le ha hle]
    exact beq_self ha

theorem isNaN_larger (ha : a.isNaN = false) (b : Float) : (larger a b).isNaN = false := by
  by_cases h : a ≤ b
  · rw [larger, if_pos (.inr h)]
    exact (le_iff.1 h).2.1
  · have hwins : ¬ (a.isNaN = true ∨ a ≤ b) := by
      rintro (hnan | hle)
      · exact Bool.false_ne_true (ha.symm.trans hnan)
      · exact h hle
    rwa [larger, if_neg hwins]

theorem rank_larger (ha : a.isNaN = false) (hb : b.isNaN = false) :
    rank (larger a b) = max (rank a) (rank b) := by
  unfold larger
  split
  · rename_i h
    simp only [ha, le_iff, hb, Bool.false_eq_true, false_or, true_and] at h
    omega
  · rename_i h
    simp only [ha, le_iff, hb, Bool.false_eq_true, false_or, true_and] at h
    omega

end Extrema

end Toolpath.Number
