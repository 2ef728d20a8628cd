import Toolpath.Machine.Run
import Toolpath.Proofs.Number.Truncation

/-!
# Reading a code

A word is accepted when it is close to a supported code, and then asked in four ways which code it
is: by closeness, by a range, by its whole part, and as an exact whole number. The ways agree on a
word close to its code when it is on the right side of the code, and for a motion the code itself.
-/

namespace Toolpath.Machine

open Program (Block Word)
open Program.Block (sameCode)
open Number
open Toolpath.Path (Motion Modal)

def codesOf (letter : Char) : List Float :=
  if letter = 'G' then settingCodesG ++ idleCodesG
  else if letter = 'M' then settingCodesM ++ idleCodesM
  else []

def motionCodes : List Float := [0, 1, 2, 3]

def frameCodes : List Float := [54, 55, 56, 57, 58, 59]

/-- The supported code that a value is accepted as. -/
def codeFor (letter : Char) (v : Float) : Float := ((codesOf letter).find? (sameCode v)).getD v

/-- The word with the code that it is accepted as. -/
def toCode (w : Word) : Word := { w with value := codeFor w.letter w.value }

def toCodes (b : Block) : Block := { b with words := b.words.map toCode }

/-- The value of a G word reads as the code everywhere. -/
structure ReadsG (v c : Float) : Prop where
  motion : c ∈ motionCodes → (v == c) = true
  frame : c ∈ frameCodes → c ≤ v ∧ v ≤ 59

structure ReadsM (v c : Float) : Prop where
  switch : c ∈ settingCodesM → c ≤ v

/-- All ways of reading a word find the code that it is accepted as. -/
structure ReadsTrue (w : Word) : Prop where
  codeG : w.letter = 'G' → ReadsG w.value (codeFor 'G' w.value)
  codeM : w.letter = 'M' → ReadsM w.value (codeFor 'M' w.value)

instance (v c : Float) : Decidable (ReadsG v c) :=
  decidable_of_iff (((∃ k ∈ motionCodes, c = k) → (v == c) = true) ∧
      ((∃ k ∈ frameCodes, c = k) → c ≤ v ∧ v ≤ 59))
    ⟨fun h => ⟨fun hc => h.1 ⟨c, hc, rfl⟩, fun hc => h.2 ⟨c, hc, rfl⟩⟩,
      fun h => ⟨fun ⟨_, hc, heq⟩ => h.motion (heq ▸ hc), fun ⟨_, hc, heq⟩ => h.frame (heq ▸ hc)⟩⟩

instance (v c : Float) : Decidable (ReadsM v c) :=
  decidable_of_iff ((∃ k ∈ settingCodesM, c = k) → c ≤ v)
    ⟨fun h => ⟨fun hc => h ⟨c, hc, rfl⟩⟩, fun h => fun ⟨_, hc, heq⟩ => h.switch (heq ▸ hc)⟩

instance (w : Word) : Decidable (ReadsTrue w) :=
  decidable_of_iff ((w.letter = 'G' → ReadsG w.value (codeFor 'G' w.value)) ∧
      (w.letter = 'M' → ReadsM w.value (codeFor 'M' w.value)))
    ⟨fun h => ⟨h.1, h.2⟩, fun h => ⟨h.codeG, h.codeM⟩⟩

variable {letter : Char} {v c k x y : Float}

section Table

/-- Supported codes are between 0 and 100, and not closer than a sixteenth to each other. -/
theorem codes_apart (h : letter = 'G' ∨ letter = 'M') : ∀ c ∈ codesOf letter,
    c.isFinite = true ∧ sameCode c c = true ∧ 0 * perOne ≤ ticks c ∧ ticks c ≤ 100 * perOne ∧
      ∀ k ∈ codesOf letter, c = k ∨ perOne ≤ 16 * |ticks c - ticks k| := by
  rcases h with rfl | rfl <;> decide +kernel

theorem ticks_of_codesOf_G : ∀ c ∈ codesOf 'G',
    ((∃ k ∈ motionCodes, c = k) ∨ 4 * perOne ≤ ticks c) ∧
      ((∃ k ∈ frameCodes, c = k) ∨ ticks c ≤ 53 * perOne ∨ 60 * perOne ≤ ticks c) := by
  decide +kernel

theorem ticks_of_codesOf_M : ∀ c ∈ codesOf 'M', perOne ∣ ticks c ∧
    ((∃ k ∈ settingCodesM, c = k) ∨ ticks c ≤ 2 * perOne ∨ 11 * perOne ≤ ticks c) := by
  decide +kernel

theorem ticks_of_frameCodes : ∀ c ∈ frameCodes,
    perOne ∣ ticks c ∧ 54 * perOne ≤ ticks c ∧ ticks c ≤ 59 * perOne := by
  decide +kernel

end Table

/-- A value is accepted as a supported code of a letter. -/
structure Accepts (letter : Char) (v c : Float) : Prop where
  coded : letter = 'G' ∨ letter = 'M'
  code : c ∈ codesOf letter
  same : sameCode v c = true

namespace Accepts

theorem finite_code (h : Accepts letter v c) : c.isFinite = true := (codes_apart h.coded c h.code).1

theorem self (h : Accepts letter v c) : Accepts letter c c :=
  ⟨h.coded, h.code, (codes_apart h.coded c h.code).2.1⟩

theorem range (h : Accepts letter v c) : 0 ≤ value c ∧ value c ≤ 100 := by
  obtain ⟨-, -, hlow, hhigh, -⟩ := codes_apart h.coded c h.code
  exact ⟨by simpa using le_value_of_ticks hlow, by simpa using value_le_of_ticks hhigh⟩

theorem near (h : Accepts letter v c) : v.isFinite = true ∧ |value v - value c| < 1 / 100 := by
  have hlt : (v - c).abs < 1e-6 := of_decide_eq_true h.same
  obtain ⟨hv, -, hnear⟩ := abs_sub_lt hlt (by decide)
  have hsmall : (100 * ticks 1e-6 : ℝ) < perOne := by
    exact_mod_cast (by decide +kernel : 100 * ticks 1e-6 < perOne)
  rw [← value_mul_perOne] at hsmall
  have hbound : 100 * value 1e-6 < 1 :=
    lt_of_mul_lt_mul_right (by linarith) perOne_pos.le
  exact ⟨hv, by linarith⟩

theorem lt_two_pow (h : Accepts letter v c) : value v < 2 ^ 32 := by
  have hnear := abs_lt.1 h.near.2
  linarith [h.range.2]

theorem sameCode_iff (h : Accepts letter v c) (hk : k ∈ codesOf letter) :
    sameCode v k = true ↔ c = k := by
  refine ⟨fun hsame => ?_, fun heq => heq ▸ h.same⟩
  refine ((codes_apart h.coded c h.code).2.2.2.2 k hk).resolve_right fun hapart => ?_
  have hc := abs_lt.1 h.near.2
  have hk := abs_lt.1 (Accepts.mk h.coded hk hsame).near.2
  have hclose : |value c - value k| < 1 / 16 := by
    rw [abs_lt]
    constructor <;> linarith
  have hfar : (perOne : ℝ) ≤ 16 * |(ticks c : ℝ) - ticks k| := by exact_mod_cast hapart
  rw [← value_mul_perOne, ← value_mul_perOne, ← sub_mul, abs_mul, abs_of_pos perOne_pos] at hfar
  have hone : 1 ≤ 16 * |value c - value k| :=
    le_of_mul_le_mul_right (by linarith) perOne_pos
  linarith

theorem not_sameCode (h : Accepts letter v c) (hk : k ∈ codesOf letter) (hne : c ≠ k) :
    sameCode v k = false :=
  Bool.eq_false_iff.2 fun hsame => hne ((h.sameCode_iff hk).1 hsame)

theorem sameCode_eq (h : Accepts letter v c) (hk : k ∈ codesOf letter) :
    sameCode c k = sameCode v k :=
  Bool.eq_iff_iff.2 ((h.self.sameCode_iff hk).trans (h.sameCode_iff hk).symm)

theorem supports (h : Accepts letter v c) : supports ⟨letter, v⟩ = true := by
  obtain ⟨rfl | rfl, hcode, hsame⟩ := h
  · exact List.any_eq_true.2 ⟨c, hcode, hsame⟩
  · exact List.any_eq_true.2 ⟨c, hcode, hsame⟩

/-- The whole part of a value is its code on one side of it, and one less on the other. -/
theorem floor_eq (h : Accepts letter v c) (hwhole : perOne ∣ ticks c) :
    ⌊value v⌋₊ = if c ≤ v then ⌊value c⌋₊ else ⌊value c⌋₊ - 1 := by
  obtain ⟨q, hq⟩ := hwhole
  have hvalue := value_eq_of_ticks (hq.trans (Int.mul_comm perOne q))
  obtain ⟨hv, hnear⟩ := h.near
  have hlow := h.range.1
  simp only [← value_le_iff h.finite_code hv]
  rw [hvalue] at hnear hlow ⊢
  obtain ⟨n, rfl⟩ := Int.eq_ofNat_of_zero_le (show 0 ≤ q by exact_mod_cast hlow)
  obtain ⟨hleft, hright⟩ := abs_lt.1 hnear
  simp only [Int.cast_natCast, Nat.floor_natCast] at hleft hright ⊢
  split_ifs with hle
  · rw [Nat.floor_eq_iff (hle.trans' (Nat.cast_nonneg n))]
    exact ⟨hle, by linarith⟩
  · cases n with
    | zero =>
      refine Nat.floor_of_nonpos ?_
      push_cast at hle
      linarith
    | succ n =>
      push_cast at hle hleft
      rw [Nat.add_sub_cancel, Nat.floor_eq_iff (by linarith [n.cast_nonneg (α := ℝ)])]
      constructor <;> linarith

theorem not_isWhole (h : Accepts letter v c) (hwhole : perOne ∣ ticks c)
    (hne : value v ≠ value c) : ¬ isWhole v = true := by
  obtain ⟨q, hq⟩ := hwhole
  obtain ⟨hv, hnear⟩ := h.near
  rw [value_eq_of_ticks (hq.trans (Int.mul_comm perOne q))] at hne hnear
  rw [isWhole_iff hv]
  rintro ⟨n, hn⟩
  rw [hn] at hne hnear
  have hclose : |(n : ℝ) - q| < 1 := hnear.trans (by norm_num)
  have hsame : |n - q| < 1 := by exact_mod_cast hclose
  rw [Int.abs_lt_one_iff, sub_eq_zero] at hsame
  exact hne (congrArg _ hsame)

end Accepts

theorem accepts_of_supports (hletter : letter = 'G' ∨ letter = 'M')
    (h : supports ⟨letter, v⟩ = true) : Accepts letter v (codeFor letter v) := by
  have hany : (codesOf letter).any (sameCode v) = true := by
    rcases hletter with rfl | rfl <;> exact h
  obtain ⟨k, hk, hsame⟩ := List.any_eq_true.1 hany
  cases hfind : (codesOf letter).find? (sameCode v) with
  | none => exact absurd hsame (List.find?_eq_none.1 hfind k hk)
  | some c =>
    rw [codeFor, hfind]
    exact ⟨hletter, List.mem_of_find?_eq_some hfind, List.find?_some hfind⟩

section Readings

/-! What each way of reading depends on. -/

theorem first_le_iff (hx : x.isFinite = true) : 54 ≤ x ↔ 54 ≤ value x := by
  have hvalue : value 54 = 54 := value_eq_of_ticks (n := 54) (by decide +kernel)
  rw [← value_le_iff (by decide) hx, hvalue]

theorem le_last_iff (hx : x.isFinite = true) : x ≤ 59 ↔ value x ≤ 59 := by
  have hvalue : value 59 = 59 := value_eq_of_ticks (n := 59) (by decide +kernel)
  rw [← value_le_iff hx (by decide), hvalue]

variable (hx : x.isFinite = true) (hsmall : value x < 2 ^ 32)
include hx hsmall

theorem switch_congr (hy : y.isFinite = true) (hsmall' : value y < 2 ^ 32)
    (h : ⌊value x⌋₊ = ⌊value y⌋₊) (modal : Modal) : switch modal x = switch modal y := by
  have hcut : x.toUInt32 = y.toUInt32 := by
    rw [← UInt32.toNat_inj, toNat_toUInt32 hx hsmall, toNat_toUInt32 hy hsmall', h]
  rw [switch, switch, hcut]

theorem switch_idle (h : value x < 3 ∨ 10 ≤ value x) (modal : Modal) : switch modal x = modal := by
  have hcut := toNat_toUInt32 hx hsmall
  have hfloor : x.toUInt32.toNat < 3 ∨ 10 ≤ x.toUInt32.toNat := by
    rw [hcut]
    exact h.imp (Nat.floor_lt' three_ne_zero).2 fun h => Nat.le_floor (by exact_mod_cast h)
  unfold switch
  split <;> first | rfl | simp_all

theorem motionOfCode_congr (hy : y.isFinite = true) (h : value x = value y) (current : Motion) :
    motionOfCode current x = motionOfCode current y := by
  have hwhole : isWhole x = isWhole y := by
    rw [Bool.eq_iff_iff, isWhole_iff hx, isWhole_iff hy, h]
  have hcut : x.toUInt32 = y.toUInt32 := by
    rw [← UInt32.toNat_inj, toNat_toUInt32 hx hsmall, toNat_toUInt32 hy (h ▸ hsmall), h]
  rw [motionOfCode, motionOfCode, hwhole, hcut]

theorem motionOfCode_of_gt (h : 3 < value x) (current : Motion) :
    motionOfCode current x = current := by
  unfold motionOfCode
  split
  · next hwhole =>
    obtain ⟨n, hn⟩ := (isWhole_iff hx).1 hwhole
    have hfour : 4 ≤ n := by
      rw [hn] at h
      exact_mod_cast h
    have hfloor : 4 ≤ x.toUInt32.toNat := by
      rw [toNat_toUInt32 hx hsmall]
      refine Nat.le_floor ?_
      rw [hn]
      exact_mod_cast hfour
    split <;> first | rfl | simp_all
  · rfl

theorem frameOfCode?_eq : frameOfCode? x =
    if 54 ≤ value x ∧ value x ≤ 59 then some (⌊value x⌋₊ - 53) else none := by
  unfold frameOfCode?
  simp only [first_le_iff hx, le_last_iff hx, toNat_toUInt64 hx (hsmall.trans (by norm_num))]

theorem frame_index {i : Nat} (h : frameOfCode? x = some i) : value x ≤ 59 ∧
    i = ⌊value x⌋₊ - 53 ∧ 54 ≤ ⌊value x⌋₊ ∧ ⌊value x⌋₊ ≤ 59 := by
  rw [frameOfCode?_eq hx hsmall] at h
  split_ifs at h with hrange
  obtain rfl := Option.some.inj h
  refine ⟨hrange.2, rfl, Nat.le_floor (by exact_mod_cast hrange.1), ?_⟩
  exact Nat.floor_le_of_le (by exact_mod_cast hrange.2)

end Readings

end Toolpath.Machine
