import Toolpath.Path.RunningTime
import Toolpath.Proofs.Geometry.Distance
import Toolpath.Proofs.Path.Plunges

/-!
# Running time without rounding

The time of a path as a real number, and how near the computed running time is to it. Changes of
tools are not rounded, so they are counted apart from the moves.
-/

namespace Toolpath.Path

open Toolpath.Geometry (Point Within position)
open Number (value roundoff underflow grain Near)

def feed (m : Modal) : Float := if 0 < m.feedrate then m.feedrate else usualFeedrate

/-- Nanoseconds for each millimetre. -/
noncomputable def pace (w : Waypoint) : ℝ :=
  match w.motion with
  | .rapid => 60 / (value (feed w.modal) * 8) * 10 ^ 9
  | .linear => 60 / value (feed w.modal) * 10 ^ 9
  | _ => 0

def pause (w : Waypoint) : Nat :=
  match w.motion with
  | .dwell => (Span.ofSeconds (Number.larger w.modal.dwellTime 0)).nanoseconds
  | _ => 0

def lastTools (p : Path) : Option (UInt32 × UInt32) :=
  p.getLast?.map fun w => (w.modal.tool, w.modal.nextTool)

/-- The nanoseconds that changes of tools take. -/
def changeTime (p : Path) : Nat :=
  ((histories p).map fun (before, w) => (toolTime (lastTools before) w.modal).nanoseconds).sum

/-- The nanoseconds of all else, as they are computed. -/
def roundedTime (p : Path) : Nat :=
  ((histories p).map fun (before, w) => (moveTime (endPoint before) w).nanoseconds).sum

/-- The nanoseconds of all else. -/
noncomputable def exactTime (p : Path) : ℝ :=
  ((histories p).map fun (before, w) =>
    pause w + pace w * dist (position (endPoint before)) (position w.point)).sum

@[simp] theorem lastTools_concat (p : Path) (w : Waypoint) :
    lastTools (p ++ [w]) = some (w.modal.tool, w.modal.nextTool) := by
  simp [lastTools]

@[simp] theorem changeTime_nil : changeTime [] = 0 := rfl

@[simp] theorem changeTime_concat (p : Path) (w : Waypoint) :
    changeTime (p ++ [w]) = changeTime p + (toolTime (lastTools p) w.modal).nanoseconds := by
  simp [changeTime]

@[simp] theorem roundedTime_nil : roundedTime [] = 0 := rfl

@[simp] theorem roundedTime_concat (p : Path) (w : Waypoint) :
    roundedTime (p ++ [w]) = roundedTime p + (moveTime (endPoint p) w).nanoseconds := by
  simp [roundedTime]

@[simp] theorem exactTime_nil : exactTime [] = 0 := by
  simp [exactTime]

@[simp] theorem exactTime_concat (p : Path) (w : Waypoint) :
    exactTime (p ++ [w]) =
      exactTime p + (pause w + pace w * dist (position (endPoint p)) (position w.point)) := by
  simp [exactTime]

/-- The sum is cut off at the longest span, whether at the end or on the way. -/
theorem foldl_step_eq (p : Path) : p.foldl Progress.step .initial =
    ⟨endPoint p, lastTools p, ⟨min Span.longest.nanoseconds (changeTime p + roundedTime p)⟩⟩ := by
  induction p using List.reverseRecOn with
  | nil => rfl
  | append_singleton p w ih =>
    rw [List.foldl_append, ih, List.foldl_cons, List.foldl_nil, Progress.step]
    simp only [Span.add, endPoint_concat, lastTools_concat, changeTime_concat, roundedTime_concat,
      Progress.mk.injEq, Span.mk.injEq, true_and]
    omega

theorem runningTime_eq (p : Path) : (runningTime p).nanoseconds =
    min Span.longest.nanoseconds (changeTime p + roundedTime p) := by
  rw [runningTime, foldl_step_eq]

section Range

/-- `2 ^ 400`. -/
def vast : Float := .ofBits 0x58F0000000000000

/-- `2 ^ -400`. -/
def tiny : Float := .ofBits 0x26F0000000000000

/-- Far from where numbers overflow or underflow. -/
structure Waypoint.InRange (w : Waypoint) : Prop where
  x : -vast ≤ w.point.x ∧ w.point.x ≤ vast
  y : -vast ≤ w.point.y ∧ w.point.y ≤ vast
  z : -vast ≤ w.point.z ∧ w.point.z ≤ vast
  feed : tiny ≤ feed w.modal ∧ feed w.modal ≤ vast

noncomputable def slowest : ℝ := 60 * value vast * 10 ^ 9

instance (w : Waypoint) : Decidable w.InRange :=
  decidable_of_iff ((-vast ≤ w.point.x ∧ w.point.x ≤ vast) ∧
      (-vast ≤ w.point.y ∧ w.point.y ≤ vast) ∧ (-vast ≤ w.point.z ∧ w.point.z ≤ vast) ∧
      tiny ≤ Path.feed w.modal ∧ Path.feed w.modal ≤ vast)
    ⟨fun ⟨x, y, z, feed⟩ => ⟨x, y, z, feed⟩, fun h => ⟨h.x, h.y, h.z, h.feed⟩⟩

theorem value_vast : value vast = 2 ^ 400 := by
  rw [Number.value_of_unpack_two_pow .positive 52 348 rfl]
  norm_num [Float.Model.UnpackedFloat.Sign.apply]

theorem value_neg_vast : value (-vast) = -2 ^ 400 := by
  rw [Number.value_of_unpack_two_pow .negative 52 348 rfl]
  norm_num [Float.Model.UnpackedFloat.Sign.apply]

theorem value_tiny : value tiny = 1 / 2 ^ 400 := by
  rw [Number.value_of_unpack_two_pow .positive 52 (-452) rfl]
  norm_num [Float.Model.UnpackedFloat.Sign.apply]

theorem bounded_of_vast {a : Float} (h : -vast ≤ a ∧ a ≤ vast) :
    a.isFinite = true ∧ |value a| ≤ 2 ^ 400 := by
  have hfin := Number.isFinite_of_le (by decide) (by decide) h.1 h.2
  have hlow := Number.value_le_of_le h.1 (by decide) hfin
  have hhigh := Number.value_le_of_le h.2 hfin (by decide)
  rw [value_neg_vast] at hlow
  rw [value_vast] at hhigh
  exact ⟨hfin, abs_le.2 ⟨hlow, hhigh⟩⟩

variable {w : Waypoint}

theorem Waypoint.InRange.within (h : w.InRange) : Within 400 w.point where
  x := bounded_of_vast h.x
  y := bounded_of_vast h.y
  z := bounded_of_vast h.z

theorem Waypoint.InRange.feed_bounds (h : w.InRange) : (Path.feed w.modal).isFinite = true ∧
    1 / 2 ^ 400 ≤ value (Path.feed w.modal) ∧ value (Path.feed w.modal) ≤ 2 ^ 400 := by
  have hfin := Number.isFinite_of_le (by decide) (by decide) h.feed.1 h.feed.2
  have hlow := Number.value_le_of_le h.feed.1 (by decide) hfin
  have hhigh := Number.value_le_of_le h.feed.2 hfin (by decide)
  rw [value_tiny] at hlow
  rw [value_vast] at hhigh
  exact ⟨hfin, hlow, hhigh⟩

end Range

section Seconds

/-- A whole number nearest to `t`, the even one where two are as near. -/
structure Nearest (n : Nat) (t : ℝ) : Prop where
  near : |(n : ℝ) - t| ≤ 1 / 2
  even : |(n : ℝ) - t| = 1 / 2 → Even n

/-- The span of `x` seconds: a whole number of nanoseconds, the nearest one, or the longest span where
that is too many. What is negative or not a number counts as the longest span as well. -/
inductive Lasts (x : Float) : Span → Prop
  | rounded {n : Nat} (finite : x.isFinite = true) (sign : 0 ≤ value x)
      (nearest : Nearest n (value x * 10 ^ 9)) : Lasts x ⟨min Span.longest.nanoseconds n⟩
  | senseless (negative : x.isFinite = true → value x < 0) : Lasts x .longest

/-- Twice the error of the rounded quotient is at most the divisor, and less if it is odd. -/
theorem divRound_bounds (num : Nat) {den : Nat} (h : 0 < den) :
    2 * (Number.divRound num den * den) ≤ 2 * num + den ∧
      2 * num ≤ 2 * (Number.divRound num den * den) + den ∧
      (Number.divRound num den % 2 = 1 → 2 * (Number.divRound num den * den) < 2 * num + den ∧
        2 * num < 2 * (Number.divRound num den * den) + den) := by
  have hsplit := Nat.div_add_mod num den
  have hmod := Nat.mod_lt num h
  unfold Number.divRound
  dsimp only
  generalize num / den = q at *
  generalize num % den = r at *
  have heven : q % 2 = 0 ∨ q % 2 = 1 := Nat.mod_two_eq_zero_or_one q
  rw [mul_comm] at hsplit
  split
  · omega
  · split
    · rw [add_one_mul]
      omega
    · rcases heven with heven | heven <;> rw [heven]
      · rw [add_zero]
        omega
      · rw [add_one_mul]
        omega

theorem divRound_nearest (num : Nat) {den : Nat} (h : 0 < den) :
    Nearest (Number.divRound num den) (num / den) := by
  have hpos : (0 : ℝ) < den := Nat.cast_pos.2 h
  obtain ⟨hup, hlow, hodd⟩ := divRound_bounds num h
  generalize Number.divRound num den = n at *
  have herror : |(n : ℝ) - num / den| = |(n * den : ℝ) - num| / den := by
    rw [sub_div' hpos.ne', abs_div, abs_of_pos hpos]
  constructor
  · have hup : 2 * ((n : ℝ) * den) ≤ 2 * num + den := by exact_mod_cast hup
    have hlow : 2 * (num : ℝ) ≤ 2 * ((n : ℝ) * den) + den := by exact_mod_cast hlow
    rw [herror, div_le_iff₀ hpos, abs_sub_le_iff]
    constructor <;> linarith
  · intro htie
    rw [herror, div_eq_iff hpos.ne'] at htie
    by_contra hnot
    obtain ⟨hup, hlow⟩ := hodd (Nat.not_even_iff.1 hnot)
    have hup : 2 * ((n : ℝ) * den) < 2 * num + den := by exact_mod_cast hup
    have hlow : 2 * (num : ℝ) < 2 * ((n : ℝ) * den) + den := by exact_mod_cast hlow
    refine htie.not_lt ?_
    rw [abs_sub_lt_iff]
    constructor <;> linarith

theorem lasts_ofSeconds (x : Float) : Lasts x (.ofSeconds x) := by
  unfold Span.ofSeconds
  cases hx : x.toModel.unpack with
  | notANumber =>
    refine .senseless fun hfin => ?_
    rw [Number.isFinite_eq, hx] at hfin
    cases hfin
  | infinity s =>
    refine .senseless fun hfin => ?_
    rw [Number.isFinite_eq, hx] at hfin
    cases hfin
  | zero s =>
    have hfin : x.isFinite = true := by rw [Number.isFinite_eq, hx]; rfl
    have hvalue : value x = 0 := by simp [value, hx, Number.partsValue]
    have hnearest : Nearest 0 (value x * 10 ^ 9) := by
      rw [hvalue, zero_mul]
      exact ⟨by norm_num, fun _ => Even.zero⟩
    exact .rounded hfin hvalue.ge hnearest
  | finite s m e hm =>
    have hfin : x.isFinite = true := by rw [Number.isFinite_eq, hx]; rfl
    have hpos : (0 : ℝ) < m * 2 ^ e := mul_pos (Nat.cast_pos.2 hm) (Number.two_zpow_pos e)
    have hvalue : value x = Number.signed s (m * 2 ^ e) := by
      rw [value, hx, Number.partsValue_finite]
    cases s with
    | negative =>
      refine .senseless fun _ => ?_
      rw [hvalue]
      exact neg_lt_zero.2 hpos
    | positive =>
      have hden : 0 < Nat.pow 2 (-e).toNat := Nat.two_pow_pos _
      have hnear := divRound_nearest (m * Nat.pow 2 e.toNat * Nat.pow 10 9) hden
      have hquot : ((m * Nat.pow 2 e.toNat * Nat.pow 10 9 : Nat) : ℝ) /
          (Nat.pow 2 (-e).toNat : Nat) = m * 2 ^ e * 10 ^ 9 := by
        have hsplit : (2 : ℝ) ^ e * 2 ^ (-e).toNat = 2 ^ e.toNat := by
          rw [← zpow_natCast, ← zpow_natCast, ← zpow_add₀ two_ne_zero]
          congr 1
          omega
        rw [div_eq_iff (by positivity)]
        push_cast [Nat.pow_eq]
        rw [← hsplit]
        ring
      rw [hquot] at hnear
      have hsigned : value x = m * 2 ^ e := hvalue
      exact .rounded hfin (hsigned ▸ hpos.le) (hsigned ▸ hnear)

theorem ofSeconds_nearest {x : Float} (hfin : x.isFinite = true) (h0 : 0 ≤ value x) :
    ∃ n : Nat, (Span.ofSeconds x).nanoseconds = min Span.longest.nanoseconds n ∧
      Nearest n (value x * 10 ^ 9) := by
  have h := lasts_ofSeconds x
  generalize Span.ofSeconds x = s at h ⊢
  cases h with
  | rounded finite sign nearest => exact ⟨_, rfl, nearest⟩
  | senseless negative => exact absurd (negative hfin) h0.not_gt

end Seconds

section Moves

theorem value_sixty : value 60 = 60 := by
  rw [Number.value_of_unpack .positive (15 * 2 ^ 49) (-47) (by decide) rfl]
  norm_num [Float.Model.UnpackedFloat.Sign.apply]

theorem value_rapidFactor : value rapidFactor = 8 := by
  rw [Number.value_of_unpack_two_pow .positive 52 (-49) rfl]
  norm_num [Float.Model.UnpackedFloat.Sign.apply]

theorem grain_mul_two_pow : grain * 2 ^ 400 = 2 ^ (-133 : Int) := by
  rw [grain, ← zpow_natCast, ← zpow_add₀ two_ne_zero]
  norm_num

theorem underflow_le_power : underflow ≤ 1 / 2 ^ 100 := by
  rw [underflow, one_div, ← zpow_natCast, ← zpow_neg]
  exact Number.two_zpow_le (by norm_num)

/-- A computed quotient of a distance and a speed. Where the distance is as small as its own error,
the speed must not be small as well. -/
theorem near_quotient {d f : Float} {D F M : ℝ} (hd : d.isFinite = true) (hd0 : 0 ≤ value d)
    (hD : 0 ≤ D) (hnear : Near (32 * roundoff) grain (value d) D)
    (hf : f.isFinite = true) (hf0 : 0 < value f) (hF0 : 0 < F) (hf1 : 1 / value f ≤ M)
    (hF1 : 1 / F ≤ M) (hM : grain * M ≤ 1 / 2 ^ 100)
    (hspeed : Near (2 * roundoff) 0 (value f) F) (hfin : (d / f).isFinite = true) :
    0 ≤ value (d / f) ∧ Near (38 * roundoff) (1 / 2 ^ 90) (value (d / f)) (D / F) := by
  have hu := Number.roundoff_pos
  have hη := Number.underflow_pos
  have hg := Number.grain_pos
  have hsmall := underflow_le_power
  have hM0 : 0 ≤ M := (one_div_pos.2 hf0).le.trans hf1
  have hquot := Number.value_div hd hf hf0.ne'
  have hquot0 : 0 ≤ value d / value f := by positivity
  have hratio := hnear.div hspeed (by positivity) (by positivity) hg.le hd0 hD hf0 hF0 hf1 hF1
  have hq0 := hquot.nonneg hquot0
  have hrest := mul_nonneg (mul_nonneg (show 0 ≤ 1 + 2 * roundoff by linarith) hg.le) hM0
  refine ⟨hq0, ((hquot.near_value hfin hquot0).trans hratio (by positivity) (by positivity)
    (by positivity) hrest).mono hq0 (by positivity)
    (by norm_num [roundoff]) ?_⟩
  norm_num [roundoff] at hM hsmall ⊢
  linarith

theorem near_seconds {d f : Float} {D F : ℝ} (hd : d.isFinite = true) (hd0 : 0 ≤ value d)
    (hd1 : value d ≤ 2 ^ 406) (hD : 0 ≤ D) (hnear : Near (32 * roundoff) grain (value d) D)
    (hf : f.isFinite = true) (hf0 : 1 / 2 ^ 400 ≤ value f) (hF : 1 / 2 ^ 400 ≤ F)
    (hspeed : Near (2 * roundoff) 0 (value f) F) :
    (d / f * 60).isFinite = true ∧ 0 ≤ value (d / f * 60) ∧
      Near (48 * roundoff) (1 / 2 ^ 60) (value (d / f * 60)) (D / F * 60) := by
  have hlow : (0 : ℝ) < 1 / 2 ^ 400 := by positivity
  have hfpos := hlow.trans_le hf0
  have hFpos := hlow.trans_le hF
  have hinv : ∀ {r : ℝ}, 1 / 2 ^ 400 ≤ r → 1 / r ≤ 2 ^ 400 := by
    intro r hr
    have := one_div_le_one_div_of_le hlow hr
    rwa [one_div_one_div] at this
  have hgrain : grain * 2 ^ 400 ≤ 1 / 2 ^ 100 := by
    rw [grain_mul_two_pow, one_div, ← zpow_natCast, ← zpow_neg]
    exact Number.two_zpow_le (by norm_num)
  have hquot := Number.value_div hd hf hfpos.ne'
  -- neither the quotient nor 60 times the quotient overflows
  have hquot1 : |value d / value f| ≤ 2 ^ 806 := by
    rw [abs_of_nonneg (by positivity), div_eq_mul_one_div,
      show (2 : ℝ) ^ 806 = 2 ^ 406 * 2 ^ 400 by rw [← pow_add]]
    exact mul_le_mul hd1 (hinv hf0) (by positivity) (by positivity)
  obtain ⟨hqfin, hqle⟩ := hquot.bounded (by norm_num) hquot1
  obtain ⟨hq0, hq⟩ := near_quotient hd hd0 hD hnear hf hfpos hFpos (hinv hf0) (hinv hF) hgrain
    hspeed hqfin
  rw [abs_of_nonneg hq0] at hqle
  have hprod := Number.value_mul hqfin (show (60 : Float).isFinite = true by decide)
  rw [value_sixty] at hprod
  obtain ⟨hfin, -⟩ := hprod.bounded (k := 813) (by norm_num) (by
    rw [abs_of_nonneg (by positivity), show (2 : ℝ) ^ 813 = 2 ^ 807 * 2 ^ 6 by rw [← pow_add]]
    exact mul_le_mul hqle (by norm_num) (by norm_num) (by positivity))
  have h0 := hprod.nonneg (by positivity)
  have hu := Number.roundoff_pos
  have hη := Number.underflow_pos
  refine ⟨hfin, h0, ((hprod.near_value hfin (by positivity)).trans (hq.scale (by norm_num))
    (by positivity) (by positivity) (by positivity) (by positivity)).mono h0 (by positivity)
    (by norm_num [roundoff]) ?_⟩
  have hsmall := underflow_le_power
  norm_num [roundoff] at hsmall ⊢
  linarith only [hsmall]

/-- The span that is computed for a number of nanoseconds. What is too long counts as the longest
span, which says nothing about the number. -/
structure Times (s : Span) (t : ℝ) : Prop where
  upper : s.nanoseconds ≤ (1 + 48 * roundoff) * t + 3 / 4
  lower : s.nanoseconds < Span.longest.nanoseconds → t ≤ (1 + 48 * roundoff) * s.nanoseconds + 3 / 4

theorem times_self (s : Span) : Times s s.nanoseconds := by
  have hcount : (0 : ℝ) ≤ roundoff * s.nanoseconds :=
    mul_nonneg Number.roundoff_pos.le (Nat.cast_nonneg _)
  exact ⟨by linarith, fun _ => by linarith⟩

theorem times_ofSeconds {x : Float} {T : ℝ} (hfin : x.isFinite = true) (h0 : 0 ≤ value x)
    (hnear : Near (48 * roundoff) (1 / 2 ^ 60) (value x) T) :
    Times (.ofSeconds x) (T * 10 ^ 9) := by
  obtain ⟨n, hn, hnearest⟩ := ofSeconds_nearest hfin h0
  obtain ⟨hlow, hhigh⟩ := abs_le.1 hnearest.near
  have hup := hnear.upper
  have hdown := hnear.lower
  have hu := Number.roundoff_pos
  have hroundoff := Number.roundoff_le
  constructor
  · have hle : ((Span.ofSeconds x).nanoseconds : ℝ) ≤ n := by
      rw [hn]
      exact_mod_cast min_le_right _ _
    norm_num at hup ⊢
    linarith
  · intro hlt
    obtain rfl : (Span.ofSeconds x).nanoseconds = n := by omega
    have hscaled := mul_le_mul_of_nonneg_left
      (show value x * 10 ^ 9 ≤ (Span.ofSeconds x).nanoseconds + 1 / 2 by linarith)
      (show 0 ≤ 1 + 48 * roundoff by linarith)
    have hsmall : roundoff ≤ 1 / 2 ^ 50 := by norm_num [roundoff]
    norm_num at hdown hscaled hsmall ⊢
    linarith

variable {last : Point} {w : Waypoint}

theorem near_rapid_feed (hw : w.InRange) : (feed w.modal * rapidFactor).isFinite = true ∧
    Near (2 * roundoff) 0 (value (feed w.modal * rapidFactor)) (value (feed w.modal) * 8) := by
  obtain ⟨hfin, hlow, hhigh⟩ := hw.feed_bounds
  have hpos : 0 ≤ value (feed w.modal) * 8 :=
    mul_nonneg ((one_div_nonneg.2 (by positivity)).trans hlow) (by norm_num)
  have hrounds := Number.value_mul hfin (by decide : rapidFactor.isFinite = true)
  rw [value_rapidFactor] at hrounds
  have hlarge : |value (feed w.modal) * 8| ≤ 2 ^ 403 := by
    rw [abs_of_nonneg hpos, show (2 : ℝ) ^ 403 = 2 ^ 400 * 2 ^ 3 by rw [← pow_add]]
    exact mul_le_mul hhigh (by norm_num) (by norm_num) (by positivity)
  obtain ⟨hrfin, -⟩ := hrounds.bounded (by norm_num) hlarge
  have hunderflow : underflow ≤ roundoff * (1 / 2 ^ 400) := by
    rw [underflow, roundoff, one_div, ← zpow_natCast, ← zpow_neg, ← zpow_add₀ two_ne_zero]
    exact Number.two_zpow_le (by norm_num)
  have hscaled := mul_le_mul_of_nonneg_left hlow Number.roundoff_pos.le
  have hslack : 0 ≤ roundoff * (value (feed w.modal) * 8) := mul_nonneg Number.roundoff_pos.le hpos
  generalize roundoff * (1 / 2 ^ 400) = small at *
  exact ⟨hrfin, hrounds.near_relative hrfin hpos (by linarith)⟩

theorem times_travel (hlast : Within 400 last) (hw : w.InRange) {f : Float} {F : ℝ}
    (hf : f.isFinite = true) (hf0 : 1 / 2 ^ 400 ≤ value f) (hF : value (feed w.modal) ≤ F)
    (hspeed : Near (2 * roundoff) 0 (value f) F) :
    Times (.ofSeconds (w.point.distance last / f * 60))
      (60 / F * 10 ^ 9 * dist (position last) (position w.point)) := by
  obtain ⟨hfin, hle⟩ := Geometry.distance_bounded (by norm_num) hw.within hlast
  obtain ⟨h0, hnear⟩ := Geometry.near_distance hfin
  rw [dist_comm] at hnear
  obtain ⟨-, hlow, -⟩ := hw.feed_bounds
  obtain ⟨hsfin, hs0, hsnear⟩ := near_seconds hfin h0 hle dist_nonneg hnear hf hf0
    (hlow.trans hF) hspeed
  have htimes := times_ofSeconds hsfin hs0 hsnear
  rwa [div_mul_comm, mul_assoc, mul_comm (dist _ _), ← mul_assoc] at htimes

theorem moveTime_eq (last : Point) (w : Waypoint) : moveTime last w = match w.motion with
    | .dwell => .ofSeconds (Number.larger w.modal.dwellTime 0)
    | .rapid => .ofSeconds (w.point.distance last / (feed w.modal * rapidFactor) * 60)
    | .linear => .ofSeconds (w.point.distance last / feed w.modal * 60)
    | _ => ⟨0⟩ := by
  unfold moveTime
  cases w.motion <;> rfl

theorem times_moveTime (hlast : Within 400 last) (hw : w.InRange) :
    Times (moveTime last w) (pause w + pace w * dist (position last) (position w.point)) := by
  obtain ⟨hfin, hlow, -⟩ := hw.feed_bounds
  have hu := Number.roundoff_pos
  have hpos : 0 < value (feed w.modal) := (show (0 : ℝ) < 1 / 2 ^ 400 by positivity).trans_le hlow
  rw [moveTime_eq]
  cases hmotion : w.motion with
  | rapid =>
    obtain ⟨hrfin, hspeed⟩ := near_rapid_feed hw
    have hfast : value (feed w.modal) ≤ value (feed w.modal * rapidFactor) := by
      by_contra hslow
      have hlower := mul_lt_mul_of_pos_left (not_le.1 hslow) (show 0 < 1 + 2 * roundoff by linarith)
      have hself := mul_le_mul_of_nonneg_right Number.roundoff_le hpos.le
      linarith only [hspeed.lower, hlower, hself, hpos]
    have htravel := times_travel hlast hw hrfin (hlow.trans hfast) (by linarith only [hpos]) hspeed
    simpa [pause, pace, hmotion] using htravel
  | linear =>
    have hself := mul_nonneg hu.le hpos.le
    have htravel := times_travel hlast hw hfin hlow le_rfl
      ⟨by linarith only [hself], by linarith only [hself]⟩
    simpa [pause, pace, hmotion] using htravel
  | dwell => simpa [pause, pace, hmotion] using times_self _
  | _ => simpa [pause, pace, hmotion] using times_self ⟨0⟩

end Moves

section Paths

variable {p q : Path}

theorem within_endPoint (hp : ∀ w ∈ p, w.InRange) : Within 400 (endPoint p) := by
  rcases List.eq_nil_or_concat p with rfl | ⟨p, w, rfl⟩
  · have hzero : (0 : Float).isFinite = true ∧ |value 0| ≤ 2 ^ 400 := ⟨by decide, by simp⟩
    exact ⟨hzero, hzero, hzero⟩
  · rw [List.concat_eq_append, endPoint_concat]
    exact (hp w (by simp)).within

theorem roundedTime_le (hp : ∀ w ∈ p, w.InRange) :
    roundedTime p ≤ (1 + 48 * roundoff) * exactTime p + 3 / 4 * p.length := by
  induction p using List.reverseRecOn with
  | nil => simp
  | append_singleton p w ih =>
    have hbefore : ∀ v ∈ p, v.InRange := fun v hv => hp v (by simp [hv])
    have htimes := times_moveTime (within_endPoint hbefore) (hp w (by simp))
    rw [roundedTime_concat, exactTime_concat, List.length_append, List.length_singleton]
    push_cast
    linarith [ih hbefore, htimes.upper]

theorem exactTime_le (hp : ∀ w ∈ p, w.InRange)
    (hshort : roundedTime p < Span.longest.nanoseconds) :
    exactTime p ≤ (1 + 48 * roundoff) * roundedTime p + 3 / 4 * p.length := by
  induction p using List.reverseRecOn with
  | nil => simp
  | append_singleton p w ih =>
    rw [roundedTime_concat] at hshort ⊢
    have hbefore : ∀ v ∈ p, v.InRange := fun v hv => hp v (by simp [hv])
    have htimes := times_moveTime (within_endPoint hbefore) (hp w (by simp))
    rw [exactTime_concat, List.length_append, List.length_singleton]
    push_cast
    linarith [ih hbefore (by omega), htimes.lower (by omega)]

/-- No longer than before, up to rounding: a nanosecond for each waypoint of both paths, and a few
units in the last place. -/
def NoSlower (p q : Path) : Prop :=
  ((runningTime q).nanoseconds : ℝ) ≤
    (1 + 128 * roundoff) * (runningTime p).nanoseconds + (p.length + q.length)

theorem noSlower_of_exactTime_le (hp : ∀ w ∈ p, w.InRange) (hq : ∀ w ∈ q, w.InRange)
    (hchange : changeTime q ≤ changeTime p)
    (hexact : exactTime q ≤ exactTime p + p.length / 8) : NoSlower p q := by
  have hu := Number.roundoff_pos
  have hlength : (0 : ℝ) ≤ p.length + q.length := by positivity
  have hcount : (0 : ℝ) ≤ roundoff * (runningTime p).nanoseconds :=
    mul_nonneg hu.le (Nat.cast_nonneg _)
  unfold NoSlower
  by_cases hshort : changeTime p + roundedTime p < Span.longest.nanoseconds
  · have hp' := exactTime_le hp (by omega)
    have hq' := roundedTime_le hq
    have hold : (runningTime p).nanoseconds = changeTime p + roundedTime p := by
      rw [runningTime_eq]
      omega
    have hnew : (runningTime q).nanoseconds ≤ changeTime p + roundedTime q := by
      rw [runningTime_eq]
      omega
    have hnew : ((runningTime q).nanoseconds : ℝ) ≤ changeTime p + roundedTime q := by
      exact_mod_cast hnew
    have hscaled := mul_le_mul_of_nonneg_left (hexact.trans (add_le_add_left hp' _))
      (show 0 ≤ 1 + 48 * roundoff by linarith)
    rw [hold]
    push_cast
    have hrounded : (0 : ℝ) ≤ roundedTime p := Nat.cast_nonneg _
    have hchanges : (0 : ℝ) ≤ roundoff * changeTime p := mul_nonneg hu.le (Nat.cast_nonneg _)
    have hlengths : (0 : ℝ) ≤ q.length := Nat.cast_nonneg _
    have hlengths' : (0 : ℝ) ≤ p.length := Nat.cast_nonneg _
    norm_num [roundoff] at hscaled hchanges hq' ⊢
    linarith
  · have hlongest : (runningTime q).nanoseconds ≤ (runningTime p).nanoseconds := by
      rw [runningTime_eq, runningTime_eq]
      omega
    have hlongest : ((runningTime q).nanoseconds : ℝ) ≤ (runningTime p).nanoseconds := by
      exact_mod_cast hlongest
    linarith

end Paths
end Toolpath.Path
