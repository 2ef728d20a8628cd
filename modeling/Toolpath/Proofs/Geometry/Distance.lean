import Toolpath.Geometry.Point
import Toolpath.Proofs.Number.Nearness

/-!
# Distances

The computed distance of two points is near their distance in space.
-/

namespace Toolpath.Geometry

open Number (value roundoff underflow overflow grain Near roundoff_pos underflow_pos grain_pos)

noncomputable def position (p : Point) : EuclideanSpace ℝ (Fin 3) :=
  .toLp _ ![value p.x, value p.y, value p.z]

theorem dist_position (a b : Point) : dist (position a) (position b) =
    √((value a.x - value b.x) ^ 2 + (value a.y - value b.y) ^ 2 + (value a.z - value b.z) ^ 2) := by
  rw [EuclideanSpace.dist_eq, Fin.sum_univ_three]
  simp [position, Real.dist_eq]

theorem grain_sq : grain ^ 2 = 256 * underflow := by
  rw [grain, underflow, ← zpow_natCast, ← zpow_mul, show (256 : ℝ) = 2 ^ (8 : Int) by norm_num,
    ← zpow_add₀ two_ne_zero]
  norm_num

theorem sqrt_underflow_le : √(20 * underflow) ≤ grain / 2 := by
  have hpos := grain_pos
  refine Real.sqrt_le_iff.2 ⟨by positivity, ?_⟩
  rw [div_pow, grain_sq]
  linarith [underflow_pos]

theorem underflow_le_grain : 4 * underflow ≤ roundoff * grain := by
  rw [roundoff, underflow, grain, ← zpow_add₀ two_ne_zero, show (4 : ℝ) = 2 ^ (2 : Int) by norm_num,
    ← zpow_add₀ two_ne_zero]
  exact Number.two_zpow_le (by norm_num)

section Squares

variable {a b : Float}

theorem square_nonneg (h : ((a - b) * (a - b)).isFinite = true) :
    0 ≤ value ((a - b) * (a - b)) := by
  obtain ⟨hsub, -⟩ := Number.finite_of_mul h
  exact (Number.value_mul hsub hsub).nonneg (mul_self_nonneg _)

theorem near_square (h : ((a - b) * (a - b)).isFinite = true) :
    Near (10 * roundoff) (4 * underflow) (value ((a - b) * (a - b))) ((value a - value b) ^ 2) := by
  obtain ⟨hsub, -⟩ := Number.finite_of_mul h
  obtain ⟨ha, hb⟩ := Number.finite_of_sub hsub
  have hdiff := ((Number.value_sub ha hb).near_abs hsub).sq (by linarith [roundoff_pos])
    (abs_nonneg _) (abs_nonneg _)
  have hprod := (Number.value_mul hsub hsub).near_value h (mul_self_nonneg _)
  rw [sq_abs, sq_abs, pow_two (value _)] at hdiff
  have hu := roundoff_pos
  have ht := underflow_pos
  refine (hprod.trans hdiff (by positivity) ?_ (by positivity) (by positivity)).mono
    (square_nonneg h) (sq_nonneg _) ?_ ?_
  · norm_num [roundoff]
  · norm_num [roundoff]
  · have hsq := mul_le_mul_of_nonneg_right Number.underflow_le ht.le
    norm_num [roundoff] at hsq ⊢
    linarith

end Squares

theorem near_sum {δ τ τ' X Y : ℝ} {x y : Float} (hx : Near δ τ (value x) X)
    (hy : Near δ τ' (value y) Y) (hδ : 0 ≤ δ) (hτ : 0 ≤ τ) (hτ' : 0 ≤ τ') (hx0 : 0 ≤ value x)
    (hy0 : 0 ≤ value y) (h : (x + y).isFinite = true) :
    0 ≤ value (x + y) ∧ Near (2 * roundoff + δ + 2 * roundoff * δ)
      (2 * underflow + (τ + τ') + 2 * roundoff * (τ + τ') + δ * (2 * underflow))
      (value (x + y)) (X + Y) := by
  obtain ⟨hfx, hfy⟩ := Number.finite_of_add h
  have hround := Number.value_add hfx hfy
  have hu := roundoff_pos
  have ht := underflow_pos
  exact ⟨hround.nonneg (add_nonneg hx0 hy0), (hround.near_value h (add_nonneg hx0 hy0)).trans
    (hx.add hy) (by positivity) hδ (by positivity) (by positivity)⟩

theorem near_distance {a b : Point} (h : (a.distance b).isFinite = true) :
    0 ≤ value (a.distance b) ∧
      Near (32 * roundoff) grain (value (a.distance b)) (dist (position a) (position b)) := by
  have hu := roundoff_pos
  have ht := underflow_pos
  have hg := grain_pos
  have hsum := Number.finite_of_sqrt h
  obtain ⟨hxy, hz⟩ := Number.finite_of_add hsum
  obtain ⟨hx, hy⟩ := Number.finite_of_add hxy
  obtain ⟨hxy0, hxyn⟩ := near_sum (near_square hx) (near_square hy) (by positivity) (by positivity)
    (by positivity) (square_nonneg hx) (square_nonneg hy) hxy
  have hxyn' : Near (13 * roundoff) (12 * underflow) _ _ := hxyn.mono hxy0 (by positivity)
    (by norm_num [roundoff]) (by norm_num [roundoff]; linarith)
  have hzn : Near (13 * roundoff) (4 * underflow) _ _ := (near_square hz).mono (square_nonneg hz)
    (sq_nonneg _) (by linarith) le_rfl
  obtain ⟨hsum0, hsumn⟩ := near_sum hxyn' hzn (by positivity) (by positivity) (by positivity) hxy0
    (square_nonneg hz) hsum
  have hsumn' : Near (16 * roundoff) (20 * underflow) _ _ := hsumn.mono hsum0 (by positivity)
    (by norm_num [roundoff]) (by norm_num [roundoff]; linarith)
  have hroot := hsumn'.sqrt (by positivity) hsum0 (by positivity) (by positivity)
  have hround := Number.value_sqrt hsum hsum0
  have hnear := (hround.near_value h (Real.sqrt_nonneg _)).trans hroot (by positivity)
    (by positivity) (by positivity) (Real.sqrt_nonneg _)
  have h0 : 0 ≤ value (a.distance b) := hround.nonneg (Real.sqrt_nonneg _)
  refine ⟨h0, ?_⟩
  rw [dist_position]
  refine hnear.mono h0 (Real.sqrt_nonneg _) (by norm_num [roundoff]) ?_
  have hrest := sqrt_underflow_le
  have hscaled := mul_le_mul_of_nonneg_left hrest hu.le
  have := underflow_le_grain
  norm_num [roundoff] at this hscaled ⊢
  linarith

section Bounded

structure Within (k : ℕ) (p : Point) : Prop where
  x : p.x.isFinite = true ∧ |value p.x| ≤ 2 ^ k
  y : p.y.isFinite = true ∧ |value p.y| ≤ 2 ^ k
  z : p.z.isFinite = true ∧ |value p.z| ≤ 2 ^ k

theorem sub_bounded {a b : Float} {k : ℕ} (hk : k + 1 < 1023)
    (ha : a.isFinite = true ∧ |value a| ≤ 2 ^ k) (hb : b.isFinite = true ∧ |value b| ≤ 2 ^ k) :
    (a - b).isFinite = true ∧ |value (a - b)| ≤ 2 ^ (k + 2) := by
  have hdiff : |value a - value b| ≤ 2 ^ (k + 1) := by
    rw [pow_succ]
    linarith [abs_sub (value a) (value b), ha.2, hb.2]
  exact (Number.value_sub ha.1 hb.1).bounded hk hdiff

theorem square_bounded {a b : Float} {k : ℕ} (hk : 2 * k + 4 < 1023)
    (ha : a.isFinite = true ∧ |value a| ≤ 2 ^ k) (hb : b.isFinite = true ∧ |value b| ≤ 2 ^ k) :
    ((a - b) * (a - b)).isFinite = true ∧ value ((a - b) * (a - b)) ≤ 2 ^ (2 * k + 5) := by
  obtain ⟨hfin, hle⟩ := sub_bounded (by omega) ha hb
  have hprod : |value (a - b) * value (a - b)| ≤ 2 ^ (2 * k + 4) := by
    rw [abs_mul, show 2 * k + 4 = (k + 2) + (k + 2) by ring, pow_add]
    exact mul_le_mul hle hle (abs_nonneg _) (by positivity)
  obtain ⟨hfin', hle'⟩ := (Number.value_mul hfin hfin).bounded (by omega) hprod
  exact ⟨hfin', (le_abs_self _).trans hle'⟩

theorem distance_bounded {a b : Point} {k : ℕ} (hk : 2 * k + 8 < 1023) (ha : Within k a)
    (hb : Within k b) :
    (a.distance b).isFinite = true ∧ value (a.distance b) ≤ 2 ^ (k + 6) := by
  obtain ⟨hfx, hx⟩ := square_bounded (by omega) ha.x hb.x
  obtain ⟨hfy, hy⟩ := square_bounded (by omega) ha.y hb.y
  obtain ⟨hfz, hz⟩ := square_bounded (by omega) ha.z hb.z
  have hx0 := square_nonneg hfx
  have hy0 := square_nonneg hfy
  have hz0 := square_nonneg hfz
  have hxy := Number.value_add hfx hfy
  obtain ⟨hfxy, hxyle⟩ := hxy.bounded (k := 2 * k + 6) (by omega) (by
    rw [abs_of_nonneg (by positivity), pow_succ]
    linarith)
  have hxy0 := hxy.nonneg (by positivity)
  rw [abs_of_nonneg hxy0] at hxyle
  have hsum := Number.value_add hfxy hfz
  obtain ⟨hfsum, hsumle⟩ := hsum.bounded (k := 2 * k + 8) (by omega) (by
    rw [abs_of_nonneg (by positivity)]
    have hpow := pow_le_pow_right₀ one_le_two (show 2 * k + 5 ≤ 2 * k + 7 by omega) (a := (2 : ℝ))
    rw [pow_succ]
    linarith)
  have hsum0 := hsum.nonneg (by positivity)
  rw [abs_of_nonneg hsum0] at hsumle
  have hroot := Number.value_sqrt hfsum hsum0
  obtain ⟨hfin, hle⟩ := hroot.bounded (k := k + 5) (by omega) (by
    rw [abs_of_nonneg (Real.sqrt_nonneg _)]
    refine Real.sqrt_le_iff.2 ⟨by positivity, hsumle.trans ?_⟩
    rw [← pow_mul]
    exact pow_le_pow_right₀ one_le_two (by omega))
  exact ⟨hfin, (le_abs_self _).trans hle⟩

end Bounded

end Toolpath.Geometry
