import Toolpath.Proofs.Geometry.Distance
import Toolpath.Proofs.Machine.Sweep
import Toolpath.Proofs.Number.Hypotenuse
import Toolpath.Proofs.Number.Truncation

/-!
# The radii of an arc

An arc is drawn only if its end is as far from the center as its start, within the limits. The
limits are comparisons, and a comparison with what is not a number fails. So the difference between
the radii is also passed when there is none, which is when the radius of the start is not finite.
-/

namespace Toolpath

open Toolpath.Geometry (Point Within sub_bounded)
open Number

namespace Machine

namespace Arc

/-- How far the end is from the circle of the start. -/
def mismatch (a : Arc) : Float := (a.finishRadius - a.radius).abs

def percent (a : Arc) : Float := a.mismatch / a.radius * 100

/-- Start and end are at finite distances from the center that agree within the limits. -/
structure Matched (a : Arc) : Prop where
  radius : a.radius.isFinite = true
  finishRadius : a.finishRadius.isFinite = true
  bounded : a.mismatch ≤ 0.5
  close : a.mismatch ≤ 0.005 ∨ a.percent ≤ 0.1

/-- How many of the shortest chords the arc is long. -/
def shortestChords (a : Arc) (t : Tolerances) : Float :=
  a.sweep.abs * (a.radius * a.radius + a.rise / a.sweep * (a.rise / a.sweep)).sqrt / t.chordLength

/-- What is known of an arc that is drawn to its end with tolerances. -/
structure Drawn (a : Arc) (t : Tolerances) : Prop where
  rotations : 1 ≤ a.rotations
  radius : ¬ (a.radius == 0) = true
  finishRadius : ¬ (a.finishRadius == 0) = true
  matched : a.Matched ↔ a.radius.isFinite = true
  mismatch : a.mismatch.isNaN = !a.radius.isFinite
  chords : (a.shortestChords t).isFinite = true → a.chordCount t ≤ ⌊value (a.shortestChords t)⌋₊
  chordless : (a.shortestChords t).isNaN = true → a.chordCount t = 0

variable {a : Arc} {t : Tolerances}

section Chords

theorem chordsForLength_eq : a.chordsForLength t = (a.shortestChords t).toUInt64.toNat := rfl

theorem chordCount_le (h : (a.shortestChords t).isFinite = true) :
    a.chordCount t ≤ ⌊value (a.shortestChords t)⌋₊ := by
  refine (min_le_right _ _).trans ?_
  rw [chordsForLength_eq, toNat_toUInt64_eq_min h]
  exact min_le_left _ _

theorem chordCount_of_vanishes (h : Vanishes (a.shortestChords t)) : a.chordCount t = 0 := by
  refine Nat.le_zero.1 ((min_le_right _ _).trans ?_)
  rw [chordsForLength_eq, h.toUInt64]

theorem vanishes_shortestChords (hradius : Vanishes (a.radius * a.radius)) (hrise : Vanishes a.rise)
    (t : Tolerances) : Vanishes (a.shortestChords t) := by
  have hpitch : Vanishes (a.rise / a.sweep) := hrise.div a.sweep
  exact ((hradius.add (hpitch.mul_left _)).sqrt.mul_left _).div _

end Chords

theorem check_eq_ok : a.check = .ok () ↔
    ¬ (a.radius == 0) = true ∧ ¬ (a.finishRadius == 0) = true ∧
      ¬ (0.005 < a.mismatch ∧ 0.1 < a.percent) ∧ ¬ 0.5 < a.mismatch := by
  have hcheck : a.check = if (a.radius == 0 || a.finishRadius == 0) = true then .error .zeroRadius
      else if (0.005 < a.mismatch ∧ 0.1 < a.percent) ∨ 0.5 < a.mismatch then
        .error (.radiusMismatch a.percent a.mismatch)
      else .ok () := rfl
  simp only [hcheck, Bool.or_eq_true]
  split_ifs with hzero hlimits
  · exact iff_of_false nofun fun h => hzero.elim h.1 h.2.1
  · exact iff_of_false nofun fun h => hlimits.elim h.2.2.1 h.2.2.2
  · exact iff_of_true rfl ⟨fun h => hzero (.inl h), fun h => hzero (.inr h),
      fun h => hlimits (.inl h), fun h => hlimits (.inr h)⟩

section Checked

variable (h : a.check = .ok ())
include h

theorem percent_number (hradius : a.radius.isFinite = true)
    (hmismatch : a.mismatch.isFinite = true) : a.percent.isNaN = false := by
  have hne : value a.radius ≠ 0 := by
    rw [← value_zero, Ne, value_eq_iff hradius (by decide)]
    exact (check_eq_ok.1 h).1
  exact isNaN_mul (value_div hmismatch hradius hne).isNaN (by decide) (by decide)

theorem matched_of_number (hnumber : a.mismatch.isNaN = false) : a.Matched := by
  obtain ⟨-, -, hclose, hbounded⟩ := check_eq_ok.1 h
  have hle : a.mismatch ≤ 0.5 := le_of_not_lt (by decide) hnumber hbounded
  have hone : a.mismatch < 1 :=
    lt_iff.2 ⟨hnumber, by decide, (le_iff.1 hle).2.2.trans_lt (by decide)⟩
  have hdifference := isFinite_of_abs_lt hone (by decide)
  obtain ⟨hfinish, hradius⟩ := finite_of_sub hdifference
  have hpercent := percent_number h hradius (by rwa [mismatch, isFinite_abs])
  refine ⟨hradius, hfinish, hle, ?_⟩
  rw [Decidable.not_and_iff_or_not] at hclose
  exact hclose.imp (le_of_not_lt (by decide) hnumber) (le_of_not_lt (by decide) hpercent)

theorem isNaN_mismatch (hnumber₁ : a.finish.primary.isNaN = false)
    (hnumber₂ : a.finish.secondary.isNaN = false) : a.mismatch.isNaN = !a.radius.isFinite := by
  cases hradius : a.radius.isFinite with
  | false =>
    by_contra hnumber
    have hmatched := matched_of_number h (by simpa using hnumber)
    rw [hmatched.radius] at hradius
    cases hradius
  | true =>
    -- The radius is finite only around a finite center.
    obtain ⟨hX, hY⟩ := finite_of_hypotenuse hradius
    have hfinish : a.finishRadius.isNaN = false :=
      isNaN_hypotenuse (isNaN_sub hnumber₁ (finite_of_sub hX).2)
        (isNaN_sub hnumber₂ (finite_of_sub hY).2)
    rw [mismatch, isNaN_abs, isNaN_sub hfinish hradius]
    rfl

theorem matched_iff (hnumber₁ : a.finish.primary.isNaN = false)
    (hnumber₂ : a.finish.secondary.isNaN = false) : a.Matched ↔ a.radius.isFinite = true := by
  refine ⟨Matched.radius, fun hradius => matched_of_number h ?_⟩
  rw [isNaN_mismatch h hnumber₁ hnumber₂, hradius]
  rfl

end Checked

end Arc

theorem isNaN_toLocal {p : Point} (h : p.hasNaN = false) (plane : Geometry.Plane) :
    (plane.toLocal p).primary.isNaN = false ∧ (plane.toLocal p).secondary.isNaN = false := by
  simp only [Point.hasNaN, Bool.or_eq_false_iff] at h
  exact toLocal_of_all (·.isNaN = false) h.1.1 h.1.2 h.2 plane

variable {m : Machine} {finish center : Point} {rotations : Float}

theorem isFinite_radius (hposition : Within 1000 m.position.point) (hcenter : Within 1000 center) :
    (m.arcOf finish center rotations).radius.isFinite = true := by
  obtain ⟨hstart₁, hstart₂⟩ := toLocal_of_all (fun v => v.isFinite = true ∧ |value v| ≤ 2 ^ 1000)
    hposition.x hposition.y hposition.z m.plane
  obtain ⟨hcenter₁, hcenter₂⟩ := toLocal_of_all (fun v => v.isFinite = true ∧ |value v| ≤ 2 ^ 1000)
    hcenter.x hcenter.y hcenter.z m.plane
  exact (hypotenuse_bounded (by decide) (sub_bounded (by decide) hstart₁ hcenter₁)
    (sub_bounded (by decide) hstart₂ hcenter₂)).1

theorem checked_of_arc (h : (m.arc finish center rotations).fault = none) :
    m.checkArc finish center rotations = .ok () := by
  cases hcheck : m.checkArc finish center rotations with
  | error e =>
    rw [arc_of_refused hcheck] at h
    cases h
  | ok u => rfl

/-- An arc that passes the checks and is too short for a chord is drawn as one line to its end. -/
theorem fault_of_vanishes (hcheck : m.checkArc finish center rotations = .ok ())
    (hradius : Vanishes ((m.arcOf finish center rotations).radius *
      (m.arcOf finish center rotations).radius))
    (hrise : Vanishes (m.arcOf finish center rotations).rise) :
    (m.arc finish center rotations).fault = none := by
  have hchords : (m.arcOf finish center rotations).chordCount m.tolerances = 0 :=
    Arc.chordCount_of_vanishes (Arc.vanishes_shortestChords hradius hrise _)
  have hends : m.chordEnds (m.arcOf finish center rotations) = [] := by
    rw [List.eq_nil_iff_length_eq_zero, length_chordEnds, if_pos hchords]
  rw [arc_of_checked hcheck, waypointsOf, hends, List.nil_append, travel_singleton,
    chordTo_finish, push, if_neg (by simp [(checkArc_eq_ok.1 hcheck).1])]
  rfl

/-- An arc that is drawn to its end counts at least one rotation, and neither end lies on the
center. The radii agree within the limits exactly when the start is at a finite distance from the
center, as it is within `2 ^ 1000` millimetres of the origin, and otherwise there is no difference of
the radii to compare. There are no more chords than the arc has room for. -/
theorem drawn_of_arc (h : (m.arc finish center rotations).fault = none) :
    (m.arcOf finish center rotations).Drawn m.tolerances ∧
      (Within 1000 m.position.point → Within 1000 center →
        (m.arcOf finish center rotations).Matched) := by
  obtain ⟨hfinish, -, hnumber, hrotations, hcheck⟩ := checkArc_eq_ok.1 (checked_of_arc h)
  obtain ⟨hnumber₁, hnumber₂⟩ := isNaN_toLocal hfinish m.plane
  obtain ⟨hradius, hfinishRadius, -, -⟩ := Arc.check_eq_ok.1 hcheck
  have hmatched := Arc.matched_iff hcheck hnumber₁ hnumber₂
  have hdrawn : (m.arcOf finish center rotations).Drawn m.tolerances := {
    rotations := le_of_not_lt hnumber (by decide) hrotations
    radius := hradius
    finishRadius := hfinishRadius
    matched := hmatched
    mismatch := Arc.isNaN_mismatch hcheck hnumber₁ hnumber₂
    chords := Arc.chordCount_le
    chordless := fun hnone => Arc.chordCount_of_vanishes (vanishes_of_isNaN hnone) }
  exact ⟨hdrawn, fun hposition hcenter => hmatched.2 (isFinite_radius hposition hcenter)⟩

/-- A quarter turn so small that the square of its radius is zero. -/
theorem smallest_arc_matched :
    ((turningAt 1e-200 0).arc ⟨0, 1e-200, 0⟩ .origin 1).fault = none ∧
      ((turningAt 1e-200 0).arcOf ⟨0, 1e-200, 0⟩ .origin 1).Matched := by
  have hcheck : (turningAt 1e-200 0).checkArc ⟨0, 1e-200, 0⟩ .origin 1 = .ok () :=
    checkArc_of_isOk (by decide +kernel)
  have hfault := fault_of_vanishes hcheck (by decide +kernel) (by decide +kernel)
  have hbound : (1 : ℝ) ≤ 2 ^ 1000 := one_le_pow₀ one_le_two
  have hzero : (0 : Float).isFinite = true ∧ |value 0| ≤ 2 ^ 1000 :=
    ⟨by decide, by rw [value_zero, abs_zero]; positivity⟩
  have htiny : (1e-200 : Float).isFinite = true ∧ |value 1e-200| ≤ 2 ^ 1000 := by
    have hpos : 0 < value 1e-200 := value_pos (by decide +kernel) (by decide +kernel)
    have hone : value 1e-200 ≤ (1 : ℤ) := value_le_of_ticks (by decide +kernel)
    rw [Int.cast_one] at hone
    exact ⟨by decide +kernel, (abs_of_pos hpos).trans_le (hone.trans hbound)⟩
  exact ⟨hfault, (drawn_of_arc hfault).2 ⟨htiny, hzero, hzero⟩ ⟨hzero, hzero, hzero⟩⟩

def infinity : Float := 1 / 0

/-- Around a center in the same infinite direction the start is at no distance at all. -/
theorem infinite_arc_counterexample : ¬ ∀ (m : Machine) (finish center : Point) (rotations : Float),
    finish.hasNaN = false → center.hasNaN = false →
    (m.arc finish center rotations).fault = none →
    (m.arcOf finish center rotations).Matched := by
  intro h
  have hcheck : (turningAt infinity 0).checkArc ⟨5, 0, 0⟩ ⟨infinity, 0, 0⟩ 1 = .ok () :=
    checkArc_of_isOk (by decide +kernel)
  have hfault := fault_of_vanishes hcheck (by decide +kernel) (by decide +kernel)
  have hmatched := h _ _ _ _ (by decide) (by decide) hfault
  exact absurd hmatched.radius (by decide +kernel)

end Machine

end Toolpath
