import Toolpath.Proofs.Geometry.Distance
import Toolpath.Proofs.Path.Simplification

/-!
# Detours cut off by simplification

Each waypoint that is dropped adds less than the tolerance to the way between its kept neighbours.
The tests compare with the last kept waypoint and with the newest one only, so what is cut off adds
up when several waypoints in a row are dropped.
-/

namespace Toolpath.Path

open Toolpath.Geometry (Point position near_distance)
open Number (value roundoff underflow overflow grain roundoff_pos underflow_pos grain_pos)

/-- The way from `a` along the waypoints `ws`. -/
noncomputable def wayLength (a : Waypoint) : List Waypoint → ℝ
  | [] => 0
  | w :: ws => dist (position a.point) (position w.point) + wayLength w ws

/-- How much the rounding of norms may hide from one test, on a way of this length. -/
noncomputable def testError (way : ℝ) : ℝ := 80 * roundoff * way + 4 * grain

theorem wayLength_nonneg (a : Waypoint) (ws : List Waypoint) : 0 ≤ wayLength a ws := by
  induction ws generalizing a with
  | nil => exact le_rfl
  | cons w ws ih => exact add_nonneg dist_nonneg (ih w)

theorem wayLength_skip_le (a v w : Waypoint) (ws : List Waypoint) :
    wayLength a (w :: ws) ≤ wayLength a (v :: w :: ws) := by
  have := dist_triangle (position a.point) (position v.point) (position w.point)
  simp only [wayLength]
  linarith

section Test

variable {tolerance : Float} {a v w : Waypoint}

theorem excess_lt (htol : 0 < tolerance) (hfin : tolerance.isFinite = true)
    (hav : (v.point.distance a.point).isFinite = true)
    (hvw : (w.point.distance v.point).isFinite = true)
    (haw : (w.point.distance a.point).isFinite = true)
    (h : passable tolerance a v w = true) :
    dist (position a.point) (position v.point) + dist (position v.point) (position w.point) <
      dist (position a.point) (position w.point) + value tolerance +
        (40 * roundoff * (dist (position a.point) (position v.point) +
          dist (position v.point) (position w.point) +
          dist (position a.point) (position w.point)) + 4 * grain) := by
  obtain ⟨hav0, havn⟩ := near_distance hav
  obtain ⟨hvw0, hvwn⟩ := near_distance hvw
  obtain ⟨haw0, hawn⟩ := near_distance haw
  rw [dist_comm] at havn hvwn hawn
  have htest : v.point.distance a.point + w.point.distance v.point - w.point.distance a.point <
      tolerance := of_decide_eq_true h
  have hsum := Number.value_add hav hvw
  have hn0 := add_nonneg hav0 hvw0
  have htol0 := (Number.value_pos htol hfin).le
  by_cases hs : (v.point.distance a.point + w.point.distance v.point).isFinite = true
  · have hs0 := hsum.nonneg hn0
    have hsumError := (abs_le.1 (hsum.error hs))
    have hdiff := (Number.value_sub hs haw).lt_of_lt htest hfin htol0
    have hmag : |value (v.point.distance a.point + w.point.distance v.point) -
        value (w.point.distance a.point)| ≤
        value (v.point.distance a.point + w.point.distance v.point) +
          value (w.point.distance a.point) := by
      rw [abs_le]
      constructor <;> linarith
    rw [abs_of_nonneg hn0] at hsumError
    obtain ⟨hsumLow, hsumHigh⟩ := hsumError
    have hgrain := Geometry.underflow_le_grain
    have hgrain0 := grain_pos
    have hd1 := dist_nonneg (x := position a.point) (y := position v.point)
    have hd2 := dist_nonneg (x := position v.point) (y := position w.point)
    have hd3 := dist_nonneg (x := position a.point) (y := position w.point)
    have := havn.lower
    have := hvwn.lower
    have := hawn.upper
    have := havn.upper
    have := hvwn.upper
    norm_num [roundoff] at *
    linarith
  · have hinfinite := hsum.eq_infinity hn0 hs
    exact absurd htest (Number.not_lt_of_infinity (Number.infinity_sub hinfinite haw) hfin)

end Test

/-- The distance of any two waypoints can be computed. -/
def Measurable (ws : List Waypoint) : Prop :=
  ∀ v ∈ ws, ∀ w ∈ ws, (w.point.distance v.point).isFinite = true

theorem Measurable.mono {vs ws : List Waypoint} (h : Measurable ws) (hsub : ∀ v ∈ vs, v ∈ ws) :
    Measurable vs := fun v hv w hw => h v (hsub v hv) w (hsub w hw)

section Run

variable {tolerance : Float} {a b v w : Waypoint} {dropped ws : List Waypoint} {way : ℝ}

theorem wayLength_lt_of_passable (htol : 0 < tolerance) (hfin : tolerance.isFinite = true)
    (hm : Measurable [a, v, w]) (hway : wayLength a (v :: w :: ws) ≤ way)
    (h : passable tolerance a v w = true) :
    wayLength a (v :: w :: ws) < wayLength a (w :: ws) + (value tolerance + testError way) := by
  have hexcess := excess_lt htol hfin (hm a (by simp) v (by simp)) (hm v (by simp) w (by simp))
    (hm a (by simp) w (by simp)) h
  have hrest := wayLength_nonneg w ws
  have htriangle := dist_triangle (position a.point) (position v.point) (position w.point)
  simp only [wayLength] at hway ⊢
  have hscaled : roundoff * (dist (position a.point) (position v.point) +
      dist (position v.point) (position w.point) + dist (position a.point) (position w.point)) ≤
      roundoff * (2 * way) := mul_le_mul_of_nonneg_left (by linarith) roundoff_pos.le
  unfold testError
  linarith

theorem wayLength_lt_of_passed (htol : 0 < tolerance) (hfin : tolerance.isFinite = true)
    (hm : Measurable (a :: v :: (dropped ++ [b])))
    (hway : wayLength a (v :: (dropped ++ [b])) ≤ way) (h : Passed tolerance a (v :: dropped) b) :
    wayLength a (v :: (dropped ++ [b])) <
      wayLength a (dropped ++ [b]) + (value tolerance + testError way) := by
  unfold Passed at h
  rw [List.cons_append] at h
  obtain ⟨w, ws, hnext⟩ : ∃ w ws, dropped ++ [b] = w :: ws := List.exists_cons_of_ne_nil (by simp)
  rw [hnext] at hm hway h ⊢
  refine wayLength_lt_of_passable htol hfin (hm.mono ?_) hway (List.isChain_cons_cons.1 h).1
  intro u hu
  simp only [List.mem_cons, List.not_mem_nil] at hu ⊢
  tauto

theorem wayLength_skip (a v b : Waypoint) (dropped : List Waypoint) :
    wayLength a (dropped ++ [b]) ≤ wayLength a (v :: (dropped ++ [b])) := by
  obtain ⟨w, ws, hnext⟩ : ∃ w ws, dropped ++ [b] = w :: ws := List.exists_cons_of_ne_nil (by simp)
  rw [hnext]
  exact wayLength_skip_le a v w ws

/-- Each of the waypoints that were dropped one after the other takes less than the tolerance off
the way. -/
theorem wayLength_le_of_passed (htol : 0 < tolerance) (hfin : tolerance.isFinite = true)
    (hm : Measurable (a :: (dropped ++ [b]))) (hway : wayLength a (dropped ++ [b]) ≤ way)
    (h : Passed tolerance a dropped b) :
    wayLength a (dropped ++ [b]) ≤ dist (position a.point) (position b.point) +
      dropped.length * (value tolerance + testError way) := by
  induction dropped with
  | nil => simp [wayLength]
  | cons v dropped ih =>
    have hstep := wayLength_lt_of_passed htol hfin hm hway h
    have hrest := ih (hm.mono (by simp; tauto)) ((wayLength_skip a v b dropped).trans hway) h.tail
    rw [List.length_cons, Nat.cast_add_one, add_one_mul, List.cons_append]
    linarith

/-- The part of the way that is cut off between two kept waypoints. -/
def CutsOff (tolerance : Float) (a : Waypoint) (dropped : List Waypoint) (b : Waypoint) : Prop :=
  dropped ≠ [] → wayLength a (dropped ++ [b]) - dist (position a.point) (position b.point) <
    dropped.length * (value tolerance + testError (wayLength a (dropped ++ [b])))

theorem cutsOff_of_passed (htol : 0 < tolerance) (hfin : tolerance.isFinite = true)
    (hm : Measurable (a :: (dropped ++ [b]))) (h : Passed tolerance a dropped b) :
    CutsOff tolerance a dropped b := by
  intro hne
  obtain ⟨v, dropped, rfl⟩ := List.exists_cons_of_ne_nil hne
  have hstep := wayLength_lt_of_passed htol hfin hm le_rfl h
  have hrest := wayLength_le_of_passed htol hfin (hm.mono (by simp; tauto))
    (wayLength_skip a v b dropped) h.tail
  rw [List.length_cons, Nat.cast_add_one, add_one_mul, List.cons_append]
  linarith

end Run

/-- What simplification cuts off between two kept waypoints of a run is less than the tolerance
for each waypoint that it drops there. -/
theorem simplify_cuts_off_little {tolerance : Float} (htol : 0 < tolerance)
    (hfin : tolerance.isFinite = true) {p : Path} (hm : ∀ run ∈ stretches p, Measurable run) :
    List.Forall₂ (Spaced (CutsOff tolerance)) (stretches p)
      (stretches (simplify tolerance p)) := by
  rw [stretches_simplify, List.forall₂_map_right_iff, List.forall₂_same]
  intro run hrun
  refine (spaced_thin (List.ne_nil_of_mem_splitBy hrun)).imp fun a dropped b hmem hpassed => ?_
  exact cutsOff_of_passed htol hfin ((hm run hrun).mono hmem) hpassed

section Kinked

def stop (x y : Float) : Waypoint :=
  ⟨{ Modal.initial with motion := .linear, feedrate := 100 }, ⟨x, y, 0⟩⟩

/-- Two corners. Neither lengthens the way by as much as 25 where it is tested. -/
def kinked : Path := [stop 0 0, stop 20 0, stop 20 15, stop (-16) 63]

theorem stretches_kinked : stretches kinked = [kinked] :=
  List.splitBy_of_isChain (by simp [kinked]) (by unfold kinked; decide)

theorem simplify_kinked : simplify 25 kinked = [stop 0 0, stop (-16) 63] := by
  have hfirst : passable 25 (stop 0 0) (stop 20 0) (stop 20 15) = true := by decide +kernel
  have hsecond : passable 25 (stop 0 0) (stop 20 15) (stop (-16) 63) = true := by decide +kernel
  rw [simplify_eq, stretches_kinked]
  simp [kinked, thin, thinFrom, hfirst, hsecond]

theorem kinked_cuts_off_little : 0 < (25 : Float) ∧ (25 : Float).isFinite = true ∧
    (∀ run ∈ stretches kinked, Measurable run) ∧
    List.Forall₂ (Spaced (CutsOff 25)) (stretches kinked) (stretches (simplify 25 kinked)) := by
  have htol : 0 < (25 : Float) := by decide +kernel
  have hfin : (25 : Float).isFinite = true := by decide +kernel
  have hm : ∀ run ∈ stretches kinked, Measurable run := by
    rw [stretches_kinked, List.forall_mem_singleton]
    unfold Measurable kinked
    decide +kernel
  exact ⟨htol, hfin, hm, simplify_cuts_off_little htol hfin hm⟩

theorem dist_stop (x y x' y' : Float) :
    dist (position (stop x y).point) (position (stop x' y').point) =
      √((value x - value x') ^ 2 + (value y - value y') ^ 2) := by
  rw [Geometry.dist_position]
  simp [stop]

theorem wayLength_kinked :
    wayLength (stop 0 0) [stop 20 0, stop 20 15, stop (-16) 63] = 95 ∧
      dist (position (stop 0 0).point) (position (stop (-16) 63).point) = 65 := by
  have h15 : value 15 = 15 := by
    rw [Number.value_of_unpack .positive (15 * 2 ^ 49) (-49) (by decide) rfl]
    norm_num [Float.Model.UnpackedFloat.Sign.apply]
  have h20 : value 20 = 20 := by
    rw [Number.value_of_unpack .positive (5 * 2 ^ 50) (-48) (by decide) rfl]
    norm_num [Float.Model.UnpackedFloat.Sign.apply]
  have h16 : value (-16) = -16 := by
    rw [Number.value_of_unpack .negative (2 ^ 52) (-48) (by decide) rfl]
    norm_num [Float.Model.UnpackedFloat.Sign.apply]
  have h63 : value 63 = 63 := by
    rw [Number.value_of_unpack .positive (63 * 2 ^ 47) (-47) (by decide) rfl]
    norm_num [Float.Model.UnpackedFloat.Sign.apply]
  have hroot : ∀ {r q : ℝ}, 0 ≤ q → r = q ^ 2 → √r = q := fun hq h => h ▸ Real.sqrt_sq hq
  simp only [wayLength, dist_stop, h15, h16, h20, h63, Number.value_zero]
  rw [hroot (q := 20) (by norm_num) (by norm_num), hroot (q := 15) (by norm_num) (by norm_num),
    hroot (q := 60) (by norm_num) (by norm_num), hroot (q := 65) (by norm_num) (by norm_num)]
  norm_num

/-- `2 ^ 511`, whose double has a square that overflows. -/
def remote : Float := .ofBits 0x5FE0000000000000

def overlong : Path := [stop 0 0, stop remote remote, stop (remote + remote) 0]

theorem simplify_overlong : simplify 1 overlong = [stop 0 0, stop (remote + remote) 0] := by
  have hstretch : stretches overlong = [overlong] :=
    List.splitBy_of_isChain (by simp [overlong]) (by unfold overlong; decide)
  have hpass : passable 1 (stop 0 0) (stop remote remote) (stop (remote + remote) 0) = true := by
    decide +kernel
  rw [simplify_eq, hstretch]
  simp [overlong, thin, thinFrom, hpass]

theorem wayLength_overlong :
    wayLength (stop 0 0) [stop remote remote, stop (remote + remote) 0] = √2 * (2 * 2 ^ 511) ∧
      dist (position (stop 0 0).point) (position (stop (remote + remote) 0).point) =
        2 * 2 ^ 511 := by
  have hremote : value remote = 2 ^ 511 := by
    rw [Number.value_of_unpack_two_pow .positive 52 459 rfl]
    norm_num [Float.Model.UnpackedFloat.Sign.apply]
  have htwice : value (remote + remote) = 2 * 2 ^ 511 := by
    rw [Number.value_of_unpack_two_pow .positive 52 460 rfl, ← pow_succ']
    norm_num [Float.Model.UnpackedFloat.Sign.apply]
  simp only [wayLength, dist_stop, hremote, htwice, Number.value_zero]
  generalize hside : (2 : ℝ) ^ 511 = side
  have hpos : 0 ≤ side := by rw [← hside]; positivity
  have hdiagonal : √(side ^ 2 + side ^ 2) = √2 * side := by
    rw [← two_mul, Real.sqrt_mul two_pos.le, Real.sqrt_sq hpos]
  constructor
  · rw [zero_sub, neg_sq, hdiagonal, show side - 2 * side = -side by ring, neg_sq, sub_zero,
      hdiagonal]
    ring
  · rw [zero_sub, neg_sq, sub_zero, zero_pow two_ne_zero, add_zero, Real.sqrt_sq (by positivity)]

/-- Two corners cut off more than the tolerance, and so does one corner that cannot be measured. -/
theorem kinked_counterexample :
    (simplify 25 kinked = [stop 0 0, stop (-16) 63] ∧
      value 25 + testError (wayLength (stop 0 0) [stop 20 0, stop 20 15, stop (-16) 63]) <
        wayLength (stop 0 0) [stop 20 0, stop 20 15, stop (-16) 63] -
          dist (position (stop 0 0).point) (position (stop (-16) 63).point)) ∧
    (simplify 1 overlong = [stop 0 0, stop (remote + remote) 0] ∧
      value 1 + testError (wayLength (stop 0 0) [stop remote remote, stop (remote + remote) 0]) <
        wayLength (stop 0 0) [stop remote remote, stop (remote + remote) 0] -
          dist (position (stop 0 0).point) (position (stop (remote + remote) 0).point)) := by
  have hgrain : grain ≤ 2 ^ (0 : Int) := Number.two_zpow_le (by norm_num)
  refine ⟨⟨simplify_kinked, ?_⟩, simplify_overlong, ?_⟩
  · have h25 : value 25 = 25 := by
      rw [Number.value_of_unpack .positive (25 * 2 ^ 48) (-48) (by decide)
        rfl]
      norm_num [Float.Model.UnpackedFloat.Sign.apply]
    rw [wayLength_kinked.1, wayLength_kinked.2, h25]
    norm_num [testError, roundoff] at hgrain ⊢
    linarith
  · have h1 : value 1 = 1 := by
      rw [Number.value_of_unpack .positive (2 ^ 52) (-52) (by decide) rfl]
      norm_num [Float.Model.UnpackedFloat.Sign.apply]
    have hlow : 1.4 ≤ √2 := Real.le_sqrt_of_sq_le (by norm_num)
    have hhigh : √2 ≤ 1.5 := Real.sqrt_le_iff.2 (by norm_num)
    have hside : (2 : ℝ) ^ 10 ≤ 2 ^ 511 := pow_le_pow_right₀ one_le_two (by norm_num)
    rw [wayLength_overlong.1, wayLength_overlong.2, h1]
    generalize (2 : ℝ) ^ 511 = side at *
    have hlow' := mul_le_mul_of_nonneg_right hlow (show 0 ≤ side by linarith)
    have hhigh' := mul_le_mul_of_nonneg_right hhigh (show 0 ≤ side by linarith)
    norm_num [testError, roundoff] at hgrain hside hlow' hhigh' ⊢
    linarith

end Kinked

end Toolpath.Path
