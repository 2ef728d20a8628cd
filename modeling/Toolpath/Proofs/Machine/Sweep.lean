import Toolpath.Proofs.Machine.Chords
import Toolpath.Proofs.Number.Sign

/-!
# The sweep of an arc

The two directions of an arc are angles from minus a half turn to a half turn. Their difference is
brought to the direction of the arc by a whole turn where it has the other sign. It can come out as
a whole turn itself, and then the correction leaves nothing.
-/

namespace Toolpath

open Toolpath.Geometry (Point)
open Number

structure Geometry.Point.Finite (p : Point) : Prop where
  x : p.x.isFinite = true
  y : p.y.isFinite = true
  z : p.z.isFinite = true

namespace Machine

/-- What is documented of the angle of a point. The zeros of `y` tell the two sides of the negative
axis apart. -/
structure IsArctangent (atan2 : Float → Float → Float) : Prop where
  bounded {y x : Float} : y.isNaN = false → x.isNaN = false → -pi ≤ atan2 y x ∧ atan2 y x ≤ pi
  right {x : Float} : 0 < x → atan2 0 x = 0 ∧ atan2 (-0) x = -0
  left {x : Float} : x < 0 → atan2 0 x = pi ∧ atan2 (-0) x = -pi
  above {y : Float} : 0 < y → atan2 y 0 = pi / 2 ∧ atan2 y (-0) = pi / 2
  below {y : Float} : y < 0 → atan2 y 0 = -(pi / 2) ∧ atan2 y (-0) = -(pi / 2)

namespace Arc

/-- The sweep with the angles of the start and the end taken by a given arctangent. -/
def sweepBy (atan2 : Float → Float → Float) (a : Arc) : Float :=
  a.sweepBetween (atan2 a.startY a.startX) (atan2 a.finishY a.finishX)

theorem sweepBy_atan2 (a : Arc) : a.sweepBy Float.atan2 = a.sweep := rfl

/-- A single turn, with the angles of the end and the start a whole turn apart the wrong way. -/
def LosesTurn (atan2 : Float → Float → Float) (a : Arc) : Prop :=
  (a.rotations == 1) = true ∧
    (atan2 a.finishY a.finishX - atan2 a.startY a.startX ==
      if a.clockwise then 2 * pi else -2 * pi) = true

/-- In the plane the end is the start, as numbers. -/
structure Closed (a : Arc) : Prop where
  primary : (a.start.primary == a.finish.primary) = true
  secondary : (a.start.secondary == a.finish.secondary) = true

/-- Start and end lie on the negative axis, but on the two sides of it where the arc goes across. -/
def OnSeam (a : Arc) : Prop :=
  a.startX < 0 ∧ if a.clockwise then a.startY = -0 ∧ a.finishY = 0
    else a.startY = 0 ∧ a.finishY = -0

instance (a : Arc) : Decidable a.OnSeam := by
  unfold OnSeam
  infer_instance

end Arc

section Angles

variable {θ θ₁ θ₂ : Float}

def IsAngle (θ : Float) : Prop := -pi ≤ θ ∧ θ ≤ pi

theorem IsAngle.isFinite (h : IsAngle θ) : θ.isFinite = true :=
  isFinite_of_le (by decide) (by decide) h.1 h.2

theorem IsAngle.value_bounds (h : IsAngle θ) : -value pi ≤ value θ ∧ value θ ≤ value pi := by
  rw [← value_neg, value_le_iff (by decide) h.isFinite,
    value_le_iff h.isFinite (by decide)]
  exact h

theorem value_turn : value (2 * pi) = 2 * value pi := by
  have hticks : ticks (2 * pi) = 2 * ticks pi := by decide +kernel
  rw [value_eq_ticks, value_eq_ticks pi, hticks, Int.cast_mul, Int.cast_ofNat, mul_assoc]

theorem value_neg_turn : value (-2 * pi) = -(2 * value pi) := by
  have hneg : -2 * pi = -(2 * pi) := by decide
  rw [hneg, value_neg, value_turn]

theorem isFinite_turn : (2 * pi).isFinite = true ∧ (-2 * pi).isFinite = true := by decide

theorem value_pi_pos : 0 < value pi := value_pos (by decide) (by decide)

theorem difference_bounds (h₁ : IsAngle θ₁) (h₂ : IsAngle θ₂) :
    -2 * pi ≤ θ₂ - θ₁ ∧ θ₂ - θ₁ ≤ 2 * pi := by
  have hfaithful := faithful_sub h₂.isFinite h₁.isFinite
  obtain ⟨hlow₁, hhigh₁⟩ := h₁.value_bounds
  obtain ⟨hlow₂, hhigh₂⟩ := h₂.value_bounds
  constructor
  · refine hfaithful.ge isFinite_turn.2 ?_
    rw [value_neg_turn]
    linarith
  · refine hfaithful.le isFinite_turn.1 ?_
    rw [value_turn]
    linarith

end Angles

namespace Arc

variable {a : Arc} {θ₁ θ₂ : Float}

section LastTurn

variable (h₁ : IsAngle θ₁) (h₂ : IsAngle θ₂)
include h₁ h₂

theorem partialSweep_clockwise (hcw : a.clockwise = true) :
    (a.partialSweep θ₁ θ₂).isFinite = true ∧ value (a.partialSweep θ₁ θ₂) ≤ 0 ∧
      (value (a.partialSweep θ₁ θ₂) < 0 ↔ ¬ (θ₂ - θ₁ == 2 * pi) = true) := by
  obtain ⟨hlow, hhigh⟩ := difference_bounds h₁ h₂
  generalize hd : θ₂ - θ₁ = d at hlow hhigh ⊢
  have hfin := isFinite_of_le isFinite_turn.2 isFinite_turn.1 hlow hhigh
  have hvalue := value_le_of_le hhigh hfin isFinite_turn.1
  have hpi := value_pi_pos
  have hpartial : a.partialSweep θ₁ θ₂ =
      if d == 0 then -2 * pi else if 0 < d then d - 2 * pi else d := by
    simp [partialSweep, wholeTurn, hcw, hd]
  rw [← value_eq_iff hfin isFinite_turn.1, hpartial]
  rw [value_turn] at hvalue ⊢
  split_ifs with hzero hpos
  · rw [← value_eq_iff hfin (by decide), value_zero] at hzero
    rw [value_neg_turn]
    exact ⟨isFinite_turn.2, by linarith, iff_of_true (by linarith) (by linarith)⟩
  · have hturned := sub_of_le hfin isFinite_turn.1 (value_pos hpos hfin).le (by rwa [value_turn])
    rw [value_turn, hvalue.lt_iff_ne] at hturned
    exact hturned
  · rw [← value_eq_iff hfin (by decide), value_zero] at hzero
    rw [← value_lt_iff (by decide) hfin, value_zero, not_lt] at hpos
    exact ⟨hfin, hpos, iff_of_true (lt_of_le_of_ne hpos hzero) (by linarith)⟩

theorem partialSweep_counterclockwise (hcw : a.clockwise = false) :
    (a.partialSweep θ₁ θ₂).isFinite = true ∧ 0 ≤ value (a.partialSweep θ₁ θ₂) ∧
      (0 < value (a.partialSweep θ₁ θ₂) ↔ ¬ (θ₂ - θ₁ == -2 * pi) = true) := by
  obtain ⟨hlow, hhigh⟩ := difference_bounds h₁ h₂
  generalize hd : θ₂ - θ₁ = d at hlow hhigh ⊢
  have hfin := isFinite_of_le isFinite_turn.2 isFinite_turn.1 hlow hhigh
  have hvalue := value_le_of_le hlow isFinite_turn.2 hfin
  have hpi := value_pi_pos
  have hpartial : a.partialSweep θ₁ θ₂ =
      if d == 0 then 2 * pi else if d < 0 then d + 2 * pi else d := by
    simp [partialSweep, wholeTurn, hcw, hd]
  rw [← value_eq_iff hfin isFinite_turn.2, hpartial]
  rw [value_neg_turn] at hvalue ⊢
  split_ifs with hzero hneg
  · rw [← value_eq_iff hfin (by decide), value_zero] at hzero
    rw [value_turn]
    exact ⟨isFinite_turn.1, by linarith, iff_of_true (by linarith) (by linarith)⟩
  · have hnonpos := (value_lt_of_lt hneg hfin (by decide)).le
    rw [value_zero] at hnonpos
    have hturned := add_of_le hfin isFinite_turn.1 hnonpos (by rwa [value_turn])
    rw [value_turn, hvalue.lt_iff_ne, ne_comm] at hturned
    exact hturned
  · rw [← value_eq_iff hfin (by decide), value_zero] at hzero
    rw [← value_lt_iff hfin (by decide), value_zero, not_lt] at hneg
    exact ⟨hfin, hneg, iff_of_true (lt_of_le_of_ne hneg (Ne.symm hzero)) (by linarith)⟩

end LastTurn

section ExtraTurns

variable (hfin : a.rotations.isFinite = true) (hone : ¬ a.rotations < 1)
include hfin hone

theorem extra_cases : (a.rotations == 1) = true ∧ (a.rotations - 1) * 2 * pi = 0 ∨
    ¬ (a.rotations == 1) = true ∧ 0 < (a.rotations - 1) * 2 * pi := by
  have hfinone : (1 : Float).isFinite = true := by decide
  by_cases heq : (a.rotations == 1) = true
  · have hrotations : a.rotations = 1 := eq_of_rank_eq (beq_iff.1 heq).2.2 (by
      rw [(beq_iff.1 heq).2.2]
      decide)
    refine .inl ⟨heq, ?_⟩
    rw [hrotations]
    decide
  · refine .inr ⟨heq, ?_⟩
    rw [← value_lt_iff hfin hfinone, not_lt] at hone
    rw [← value_eq_iff hfin hfinone] at heq
    have hmore : 0 < a.rotations - 1 :=
      (zero_lt_sub_iff hfin hfinone).2 (lt_of_le_of_ne hone (Ne.symm heq))
    have htwo : value 2 = 2 := value_eq_of_ticks (n := 2) (by decide +kernel)
    have hpi : (2 : ℤ) ≤ value pi := le_value_of_ticks (by decide +kernel)
    exact mul_pos_of_two_le (mul_pos_of_two_le hmore (by decide) htwo.ge)
      (by decide) (by exact_mod_cast hpi)

variable {atan2 : Float → Float → Float} (h₁ : IsAngle (atan2 a.startY a.startX))
  (h₂ : IsAngle (atan2 a.finishY a.finishX))
include h₁ h₂

theorem sweepBy_lt_zero_iff (hcw : a.clockwise = true) :
    a.sweepBy atan2 < 0 ↔ ¬ a.LosesTurn atan2 := by
  obtain ⟨hpartial, hnonpos, hneg⟩ := partialSweep_clockwise h₁ h₂ hcw
  rw [sweepBy, sweepBetween, extraSweep, LosesTurn, if_pos hcw, if_pos hcw]
  rcases extra_cases hfin hone with ⟨heq, hextra⟩ | ⟨hne, hextra⟩
  · rw [hextra, add_lt_zero_iff hpartial (by decide), value_neg_zero, add_zero, hneg,
      and_iff_right heq]
  · exact iff_of_true (add_neg_lt_zero hpartial hnonpos hextra) fun h => hne h.1

theorem zero_lt_sweepBy_iff (hcw : a.clockwise = false) :
    0 < a.sweepBy atan2 ↔ ¬ a.LosesTurn atan2 := by
  obtain ⟨hpartial, hnonneg, hpos⟩ := partialSweep_counterclockwise h₁ h₂ hcw
  rw [← Bool.not_eq_true] at hcw
  rw [sweepBy, sweepBetween, extraSweep, LosesTurn, if_neg hcw, if_neg hcw]
  rcases extra_cases hfin hone with ⟨heq, hextra⟩ | ⟨hne, hextra⟩
  · rw [hextra, zero_lt_add_iff hpartial (by decide), value_zero, add_zero, hpos,
      and_iff_right heq]
  · exact iff_of_true (add_pos_of_pos hpartial hnonneg hextra) fun h => hne h.1

end ExtraTurns

section FullCircle

theorem partialSweep_same (h : IsAngle θ₁) : a.partialSweep θ₁ θ₁ = a.wholeTurn :=
  if_pos ((sub_beq_zero_iff h.isFinite h.isFinite).2 rfl)

/-- Across the negative axis from above, counterclockwise, the correction leaves nothing. -/
theorem partialSweep_down :
    a.partialSweep pi (-pi) = if a.clockwise then a.wholeTurn else 0 := by
  unfold partialSweep wholeTurn
  cases a.clockwise <;> decide +kernel

theorem partialSweep_up :
    a.partialSweep (-pi) pi = if a.clockwise then 0 else a.wholeTurn := by
  unfold partialSweep wholeTurn
  cases a.clockwise <;> decide +kernel

theorem hypotenuse_zeros {x y : Float} (hx : rank x = 0) (hy : rank y = 0) :
    (hypotenuse x y == 0) = true := by
  rcases eq_zero_or_neg_zero hx with rfl | rfl <;> rcases eq_zero_or_neg_zero hy with rfl | rfl <;>
    decide

variable {atan2 : Float → Float → Float} (h : IsArctangent atan2)
include h

theorem vertical {x x' y : Float} (hy : 0 < y ∨ y < 0) (hx : x = 0 ∨ x = -0)
    (hx' : x' = 0 ∨ x' = -0) : atan2 y x = atan2 y x' := by
  have hzeros : atan2 y 0 = atan2 y (-0) := by
    rcases hy with hy | hy
    · exact (h.above hy).1.trans (h.above hy).2.symm
    · exact (h.below hy).1.trans (h.below hy).2.symm
  rcases hx with rfl | rfl <;> rcases hx' with rfl | rfl
  · rfl
  · exact hzeros
  · exact hzeros.symm
  · rfl

variable (hradius : ¬ (a.radius == 0) = true) (hX : (a.startX == a.finishX) = true)
  (hY : (a.startY == a.finishY) = true)
include hradius hX hY

theorem partialSweep_of_equal :
    a.partialSweep (atan2 a.startY a.startX) (atan2 a.finishY a.finishX) =
      if a.OnSeam then 0 else a.wholeTurn := by
  obtain ⟨hnumberX, -, hrankX⟩ := beq_iff.1 hX
  obtain ⟨hnumberY, -, hrankY⟩ := beq_iff.1 hY
  have hangle : IsAngle (atan2 a.startY a.startX) := h.bounded hnumberY hnumberX
  by_cases h0 : rank a.startY = 0
  · -- On the axis the start is not the center, so only the signs of the zeros can differ.
    have hne : rank a.startX ≠ 0 := fun hx => hradius (hypotenuse_zeros hx h0)
    have hx : a.finishX = a.startX := eq_of_rank_eq hrankX.symm (hrankX ▸ hne)
    have hy := eq_zero_or_neg_zero h0
    have hy' := eq_zero_or_neg_zero (hrankY ▸ h0)
    rw [hx]
    rcases zero_lt_or_lt_zero hnumberX hne with hpos | hneg
    · have hoff : ¬ a.OnSeam := fun hseam =>
        absurd (lt_iff.1 hpos).2.2 (not_lt.2 (lt_iff.1 hseam.1).2.2.le)
      have hzero {y : Float} (hy : y = 0 ∨ y = -0) : value (atan2 y a.startX) = 0 := by
        rcases hy with rfl | rfl
        · rw [(h.right hpos).1, value_zero]
        · rw [(h.right hpos).2, value_neg_zero]
      have hangle' : IsAngle (atan2 a.finishY a.startX) := h.bounded (beq_iff.1 hY).2.1 hnumberX
      rw [if_neg hoff]
      refine if_pos ((sub_beq_zero_iff hangle'.isFinite hangle.isFinite).2 ?_)
      rw [hzero hy, hzero hy']
    · obtain ⟨habove, hbelow⟩ := h.left hneg
      have hseam : a.OnSeam ↔ if a.clockwise then a.startY = -0 ∧ a.finishY = 0
          else a.startY = 0 ∧ a.finishY = -0 := and_iff_right hneg
      have hzeros : (0 : Float) ≠ -0 := by decide
      have hpi : IsAngle pi := by
        unfold IsAngle
        decide
      have hpi' : IsAngle (-pi) := by
        unfold IsAngle
        decide
      simp only [hseam]
      rcases hy with hy | hy <;> rcases hy' with hy' | hy' <;> rw [hy, hy']
      · rw [habove, partialSweep_same hpi]
        cases a.clockwise <;> simp [hzeros]
      · rw [habove, hbelow, partialSweep_down]
        cases a.clockwise <;> simp [hzeros]
      · rw [habove, hbelow, partialSweep_up]
        cases a.clockwise <;> simp [hzeros]
      · rw [hbelow, partialSweep_same hpi']
        cases a.clockwise <;> simp [hzeros.symm]
  · have hy : a.finishY = a.startY := eq_of_rank_eq hrankY.symm (hrankY ▸ h0)
    have hoff : ¬ a.OnSeam := by
      rintro ⟨-, hseam⟩
      split_ifs at hseam
      · exact h0 (by rw [hseam.1]; decide)
      · exact h0 (by rw [hseam.1]; decide)
    have hsame : atan2 a.finishY a.finishX = atan2 a.startY a.startX := by
      rw [hy]
      rcases eq_or_zeros_of_beq hX with hx | ⟨hx, hx'⟩
      · rw [hx]
      · exact vertical h (zero_lt_or_lt_zero hnumberY h0) hx' hx
    rw [if_neg hoff, hsame]
    exact partialSweep_same hangle

theorem sweepBy_of_equal : a.sweepBy atan2 =
    (if a.OnSeam then 0 else a.wholeTurn) + a.extraSweep := by
  rw [sweepBy, sweepBetween, partialSweep_of_equal h hradius hX hY]

end FullCircle

end Arc

section Checked

theorem toLocal_of_all (P : Float → Prop) {p : Point} (hx : P p.x) (hy : P p.y) (hz : P p.z)
    (plane : Geometry.Plane) :
    P (plane.toLocal p).primary ∧ P (plane.toLocal p).secondary := by
  cases plane
  · exact ⟨hx, hy⟩
  · exact ⟨hz, hx⟩
  · exact ⟨hy, hz⟩

theorem finite_toLocal {p : Point} (h : p.Finite) (plane : Geometry.Plane) :
    (plane.toLocal p).primary.isFinite = true ∧ (plane.toLocal p).secondary.isFinite = true :=
  toLocal_of_all (·.isFinite = true) h.x h.y h.z plane

variable {m : Machine} {finish center : Point} {rotations : Float}
  (hcheck : m.checkArc finish center rotations = .ok ())
include hcheck

theorem radius_of_checked : ¬ ((m.arcOf finish center rotations).radius == 0) = true := by
  obtain ⟨-, -, -, -, hpassed⟩ := checkArc_eq_ok.1 hcheck
  intro hzero
  unfold Arc.check at hpassed
  rw [hzero, Bool.true_or, if_pos rfl] at hpassed
  cases hpassed

variable {atan2 : Float → Float → Float} (harctangent : IsArctangent atan2)
  (hposition : m.position.point.Finite) (hfinish : finish.Finite) (hcenter : center.Finite)
  (hrotations : rotations.isFinite = true)
include harctangent hposition hfinish hcenter hrotations

/-- The sweep has the direction of the arc, except that a single turn between directions that are a
whole turn apart the wrong way is lost. An arc that ends where it starts makes a full turn and the
extra ones, except that it makes only the extra ones across the seam. -/
theorem sweep_of_checked :
    (m.modal.motion = .clockwise → ((m.arcOf finish center rotations).sweepBy atan2 < 0 ↔
      ¬ (m.arcOf finish center rotations).LosesTurn atan2)) ∧
    (m.modal.motion ≠ .clockwise → (0 < (m.arcOf finish center rotations).sweepBy atan2 ↔
      ¬ (m.arcOf finish center rotations).LosesTurn atan2)) ∧
    ((m.arcOf finish center rotations).Closed →
      (m.arcOf finish center rotations).sweepBy atan2 =
        (if (m.arcOf finish center rotations).OnSeam then 0
          else (m.arcOf finish center rotations).wholeTurn) +
          (m.arcOf finish center rotations).extraSweep) := by
  obtain ⟨hstart₁, hstart₂⟩ := finite_toLocal hposition m.plane
  obtain ⟨hfinish₁, hfinish₂⟩ := finite_toLocal hfinish m.plane
  obtain ⟨hcenter₁, hcenter₂⟩ := finite_toLocal hcenter m.plane
  obtain ⟨a, ha⟩ : ∃ a, a = m.arcOf finish center rotations := ⟨_, rfl⟩
  have hangle₁ : IsAngle (atan2 a.startY a.startX) := by
    rw [ha]
    exact harctangent.bounded (faithful_sub hstart₂ hcenter₂).number
      (faithful_sub hstart₁ hcenter₁).number
  have hangle₂ : IsAngle (atan2 a.finishY a.finishX) := by
    rw [ha]
    exact harctangent.bounded (faithful_sub hfinish₂ hcenter₂).number
      (faithful_sub hfinish₁ hcenter₁).number
  have hfin : a.rotations.isFinite = true := by rwa [ha]
  have hone : ¬ a.rotations < 1 := by
    rw [ha]
    exact (checkArc_eq_ok.1 hcheck).2.2.2.1
  have hclockwise : a.clockwise = (m.modal.motion == .clockwise) := by
    rw [ha]
    rfl
  rw [← ha]
  refine ⟨fun hmotion => ?_, fun hmotion => ?_, fun hclosed => ?_⟩
  · exact Arc.sweepBy_lt_zero_iff hfin hone hangle₁ hangle₂ (by simp [hclockwise, hmotion])
  · exact Arc.zero_lt_sweepBy_iff hfin hone hangle₁ hangle₂ (by simp [hclockwise, hmotion])
  · subst ha
    exact Arc.sweepBy_of_equal harctangent (radius_of_checked hcheck)
      (sub_beq_sub hstart₁ hfinish₁ hcenter₁ hclosed.primary)
      (sub_beq_sub hstart₂ hfinish₂ hcenter₂ hclosed.secondary)

end Checked

section Seam

/-- An arctangent that is exact on the axes, and elsewhere as on the vertical one. -/
def axisAngle (y x : Float) : Float :=
  if y == 0 then (if x < 0 then (if y = 0 then pi else -pi) else y)
  else if 0 < y then pi / 2 else -(pi / 2)

theorem isArctangent_axisAngle : IsArctangent axisAngle where
  bounded {y x} hy _ := by
    unfold axisAngle
    split_ifs with hzero
    · decide
    · decide
    · rcases eq_zero_or_neg_zero ((beq_iff.1 hzero).2.2.trans rank_zero) with rfl | rfl <;>
        decide
    · decide
    · decide
  right {x} hx := by
    have hleft : ¬ x < 0 := fun h => absurd (lt_iff.1 hx).2.2 (lt_asymm (lt_iff.1 h).2.2)
    unfold axisAngle
    rw [if_pos (by decide), if_neg hleft, if_pos (by decide), if_neg hleft]
    exact ⟨rfl, rfl⟩
  left {x} hx := by
    unfold axisAngle
    rw [if_pos (by decide), if_pos hx, if_pos rfl, if_pos (by decide), if_pos hx,
      if_neg (by decide)]
    exact ⟨rfl, rfl⟩
  above {y} hy := by
    have hzero : ¬ (y == 0) = true := fun h => (lt_iff.1 hy).2.2.ne (beq_iff.1 h).2.2.symm
    unfold axisAngle
    rw [if_neg hzero, if_neg hzero, if_pos hy]
    exact ⟨rfl, rfl⟩
  below {y} hy := by
    have hzero : ¬ (y == 0) = true := fun h => (lt_iff.1 hy).2.2.ne (beq_iff.1 h).2.2
    have habove : ¬ 0 < y := fun h => absurd (lt_iff.1 hy).2.2 (lt_asymm (lt_iff.1 h).2.2)
    unfold axisAngle
    rw [if_neg hzero, if_neg hzero, if_neg habove]
    exact ⟨rfl, rfl⟩

def turningAt (x y : Float) : Machine :=
  { initial with
    modal := { Path.Modal.initial with motion := .clockwise }
    path := #[⟨Path.Modal.initial, ⟨x, y, 0⟩⟩] }

theorem finite_plane {x y : Float} (h : x.isFinite = true ∧ y.isFinite = true) :
    Point.Finite ⟨x, y, 0⟩ := ⟨h.1, h.2, (by decide : (0 : Float).isFinite = true)⟩

theorem checkArc_of_isOk {m : Machine} {finish center : Point} {rotations : Float}
    (h : (m.checkArc finish center rotations).isOk = true) :
    m.checkArc finish center rotations = .ok () := by
  cases hcheck : m.checkArc finish center rotations with
  | error e =>
    rw [hcheck] at h
    cases h
  | ok u => rfl

theorem turningAt_sweeps : (turningAt 10 0).checkArc ⟨10, -0, 0⟩ .origin 2 = .ok () ∧
    ((turningAt 10 0).arcOf ⟨10, -0, 0⟩ .origin 2).sweepBy axisAngle < 0 ∧
    ((turningAt 10 0).arcOf ⟨10, -0, 0⟩ .origin 2).sweepBy axisAngle = -2 * pi + -(2 * pi) := by
  have hcheck : (turningAt 10 0).checkArc ⟨10, -0, 0⟩ .origin 2 = .ok () :=
    checkArc_of_isOk (by decide)
  obtain ⟨hclockwise, -, hequal⟩ := sweep_of_checked hcheck isArctangent_axisAngle
    (finite_plane (by decide)) (finite_plane (by decide))
    (finite_plane (by decide)) (by decide)
  refine ⟨hcheck, (hclockwise rfl).2 fun h => absurd h.1 (by decide), ?_⟩
  rw [hequal ⟨by decide, by decide⟩]
  decide +kernel

/-- On the seam a whole circle is lost. -/
theorem seam_counterexample : ¬ ∀ (atan2 : Float → Float → Float) (m : Machine)
    (finish center : Point) (rotations : Float), IsArctangent atan2 →
    m.checkArc finish center rotations = .ok () → m.position.point.Finite → finish.Finite →
    center.Finite → rotations.isFinite = true → m.modal.motion = .clockwise →
    (m.arcOf finish center rotations).sweepBy atan2 < 0 := by
  intro h
  have hsweep := h axisAngle (turningAt (-1) (-0)) ⟨-1, 0, 0⟩ .origin 1 isArctangent_axisAngle
    (checkArc_of_isOk (by decide)) (finite_plane (by decide))
    (finite_plane (by decide)) (finite_plane (by decide)) (by decide) rfl
  revert hsweep
  decide

end Seam

end Machine

end Toolpath
