import Toolpath.Path.Adjustment
import Toolpath.Path.Retraction
import Toolpath.Proofs.Path.Homing
import Toolpath.Proofs.Path.Redrilling

/-!
# Symmetries of paths

Drilling, lifting and the safety plane look at motions, at levels, and at whether two places are the
same. A change of every waypoint that keeps these can be made before or after them. Swapping the
axes is such a change, and the way home does not tell the axes apart either.
-/

namespace Toolpath.Path

open Toolpath.Geometry (Point)

/-- A change of waypoints that turns their points and keeps their motions. Levels stay, and the same
places stay the same. A level or a motion can be set before or after the change. -/
structure Symmetry (turn : Point → Point) (change : Waypoint → Waypoint) : Prop where
  point : ∀ w, (change w).point = turn w.point
  motion : ∀ w, (change w).motion = w.motion
  withZ : ∀ w z, change (w.withZ z) = (change w).withZ z
  withMotion : ∀ w m, change (w.withMotion m) = (change w).withMotion m
  level : ∀ a, (turn a).z = a.z
  place : ∀ a b, (turn a).sameXY (turn b) = a.sameXY b
  origin : turn .origin = .origin

namespace Symmetry

variable {turn : Point → Point} {change : Waypoint → Waypoint}

theorem z (h : Symmetry turn change) (w : Waypoint) : (change w).point.z = w.point.z := by
  rw [h.point, h.level]

theorem sameXY (h : Symmetry turn change) (w : Waypoint) (a : Point) :
    (change w).point.sameXY (turn a) = w.point.sameXY a := by
  rw [h.point, h.place]

theorem endPoint_map (h : Symmetry turn change) (p : Path) :
    endPoint (p.map change) = turn (endPoint p) := by
  induction p using List.reverseRecOn with
  | nil => exact h.origin.symm
  | append_singleton p w _ =>
    rw [List.map_append, List.map_singleton, endPoint_concat, endPoint_concat, h.point]

section Drilling

theorem plunge_iff (h : Symmetry turn change) (last : Point) (w : Waypoint) :
    Plunge (turn last) (change w) ↔ Plunge last w := by
  have hlinear : (change w).motion = .linear ↔ w.motion = .linear := by rw [h.motion]
  have hdown : (change w).point.z < (turn last).z ↔ w.point.z < last.z := by rw [h.z, h.level]
  constructor
  · intro hw
    exact ⟨hlinear.1 hw.linear, h.sameXY w last ▸ hw.straight, hdown.1 hw.down⟩
  · intro hw
    exact ⟨hlinear.2 hw.linear, (h.sameXY w last).symm ▸ hw.straight, hdown.2 hw.down⟩

theorem plungesAt_map (h : Symmetry turn change) (here : Point) (p : Path) :
    plungesAt (turn here) (p.map change) = (plungesAt here p).map change := by
  induction p using List.reverseRecOn with
  | nil => rfl
  | append_singleton p w ih =>
    have hplunge : Plunge (endPoint (p.map change)) (change w) ↔ Plunge (endPoint p) w := by
      rw [h.endPoint_map]
      exact h.plunge_iff (endPoint p) w
    have hplace : (change w).point.sameXY (turn here) = true ↔ w.point.sameXY here = true := by
      rw [h.sameXY]
    have hboth := and_congr hplunge hplace
    rw [List.map_append, List.map_singleton, plungesAt_concat, plungesAt_concat, ih,
      List.map_append]
    by_cases hw : Plunge (endPoint p) w ∧ w.point.sameXY here = true
    · rw [if_pos hw, if_pos (hboth.2 hw), List.map_singleton]
    · rw [if_neg hw, if_neg (hboth.not.2 hw), List.map_nil]

theorem deepest?_map (h : Symmetry turn change) (here : Point) (p : Path) :
    deepest? (turn here) (p.map change) = deepest? here p := by
  have hlevels : (fun w => w.point.z) ∘ change = fun w => w.point.z := funext h.z
  simp only [deepest?, h.plungesAt_map, List.map_map, hlevels]

theorem redrilled_map (h : Symmetry turn change) (before : Path) (w : Waypoint) :
    redrilled (before.map change) (change w) = (redrilled before w).map change := by
  simp only [redrilled, h.endPoint_map, h.plunge_iff, h.level, h.point w, h.deepest?_map]
  by_cases hw : Plunge (endPoint before) w
  · rw [if_pos hw, if_pos hw]
    cases deepest? w.point before with
    | none => rfl
    | some depth =>
      by_cases hstart : (endPoint before).z ≤ depth
      · simp [hstart]
      · by_cases hz : depth ≤ w.point.z
        · simp [hstart, hz, h.withMotion]
        · simp [hstart, hz, h.withMotion, h.withZ]
  · simp [hw]

theorem drill_map (h : Symmetry turn change) (p : Path) :
    drill (p.map change) = (drill p).map change := by
  rw [drill_eq_redrill, drill_eq_redrill]
  induction p using List.reverseRecOn with
  | nil => rfl
  | append_singleton p w ih =>
    rw [List.map_append, List.map_singleton, redrill_concat, redrill_concat, List.map_append, ih,
      h.redrilled_map]

end Drilling

theorem walk_origin_map (h : Symmetry turn change)
    {step : Point → Waypoint → Point × List Waypoint} (hpoint : ∀ last w, (step last w).1 = w.point)
    (hout : ∀ last w, (step (turn last) (change w)).2 = (step last w).2.map change) (p : Path) :
    walk step .origin (p.map change) = (walk step .origin p).map change := by
  refine walk_map (R := fun last turned => turned = turn last) ?_ h.origin.symm p
  rintro last _ w rfl
  refine ⟨hout last w, ?_⟩
  rw [hpoint, hpoint, h.point]

theorem lift_map (h : Symmetry turn change) (p : Path) :
    lift (p.map change) = (lift p).map change := by
  refine h.walk_origin_map (fun _ _ => rfl) (fun last w => ?_) p
  have hrises : rises (turn last) (change w) = rises last w := by
    simp only [rises, h.sameXY, h.z, h.level]
  cases hup : rises last w with
  | true => simp [retract, hrises, hup, h.withMotion]
  | false => simp [retract, hrises, hup]

section SafetyPlane

theorem levels_map (h : Symmetry turn change) (p : Path) : levels (p.map change) = levels p := by
  rw [levels, List.map_map]
  exact List.map_congr_left fun w _ => h.z w

theorem moveLevels_map (h : Symmetry turn change) (old new : Float) (p : Path) :
    walk (moveLevel old new) .origin (p.map change) =
      (walk (moveLevel old new) .origin p).map change := by
  refine h.walk_origin_map (fun _ _ => rfl) (fun last w => ?_) p
  simp only [moveLevel, h.z, h.level, h.sameXY]
  cases w.point.z == old && (w.point.sameXY last || last.z == old) with
  | true => simp [h.withZ]
  | false => simp

theorem safetyHeight_map (h : Symmetry turn change) (p : Path) :
    safetyHeight (p.map change) = safetyHeight p := by
  rw [safetyHeight, h.levels_map, safetyHeight]

theorem setSafetyHeight_map (h : Symmetry turn change) (height : Float) (p : Path) :
    setSafetyHeight height (p.map change) = (setSafetyHeight height p).map (·.map change) := by
  have hnext : nextLevel (p.map change) = nextLevel p := by
    rw [nextLevel, h.levels_map, h.safetyHeight_map, nextLevel]
  rw [setSafetyHeight, setSafetyHeight, h.safetyHeight_map, hnext, h.moveLevels_map]
  by_cases hlow : height ≤ nextLevel p
  · rw [if_pos hlow, if_pos hlow]
    rfl
  · rw [if_neg hlow, if_neg hlow]
    rfl

end SafetyPlane

end Symmetry

section Axes

theorem symmetry_swapXY : Symmetry Point.swapXY fun w => w.withPoint w.point.swapXY where
  point _ := rfl
  motion _ := rfl
  withZ _ _ := rfl
  withMotion _ _ := rfl
  level _ := rfl
  place a b := Bool.and_comm (a.y == b.y) (a.x == b.x)
  origin := rfl

/-- The tool crosses over to the same place, whichever axis comes first. -/
theorem homeward_swapXY (height : Float) (last : Waypoint) :
    homeward height (last.withPoint last.point.swapXY) = swapXY (homeward height last) := by
  have hover : (last.point.swapXY.x == 0 && last.point.swapXY.y == 0) =
      (last.point.x == 0 && last.point.y == 0) := Bool.and_comm _ _
  have hlevel : last.point.swapXY.z = last.point.z := rfl
  simp only [homeward, Waypoint.withPoint, hover, hlevel]
  split
  · rfl
  · simp only [Waypoint.withXY, Waypoint.withZ, Waypoint.withMotion, Waypoint.withPoint, swapXY,
      List.map_append]
    cases last.point.z == height with
    | true =>
      simp only [if_true, hlevel]
      split <;> rfl
    | false =>
      simp only [Bool.false_eq_true, if_false]
      split <;> rfl

theorem returnHome_swapXY (s : Shutdown) (p : Path) :
    returnHome s (swapXY p) = swapXY (returnHome s p) := by
  rcases List.eq_nil_or_concat p with rfl | ⟨front, last, rfl⟩
  · rfl
  · have hlast : (swapXY (front ++ [last])).getLast? =
        some (last.withPoint last.point.swapXY) := by
      simp [swapXY]
    have horigin : atOrigin (last.withPoint last.point.swapXY) = atOrigin last :=
      congrArg (· && last.point.z == 0) (Bool.and_comm _ _)
    have hheight : safetyHeight (swapXY (front ++ [last])) = safetyHeight (front ++ [last]) :=
      symmetry_swapXY.safetyHeight_map _
    have hshut : ∀ q : Path, mapLast s.apply (swapXY q) = swapXY (mapLast s.apply q) := by
      intro q
      exact mapLast_map (g := fun w => w.withPoint w.point.swapXY) (fun _ => rfl) q
    rw [List.concat_eq_append]
    simp only [returnHome, hlast, List.getLast?_concat, horigin, hheight, homeward_swapXY, hshut]
    split
    · rfl
    · exact List.map_append.symm

/-- Nothing tells the axes apart: they may be swapped before or after. -/
theorem swapXY_comm (p : Path) : drill (swapXY p) = swapXY (drill p) ∧
    lift (swapXY p) = swapXY (lift p) ∧
    (∀ height, setSafetyHeight height (swapXY p) = (setSafetyHeight height p).map swapXY) ∧
    ∀ s, returnHome s (swapXY p) = swapXY (returnHome s p) := by
  refine ⟨symmetry_swapXY.drill_map p, symmetry_swapXY.lift_map p, ?_, ?_⟩
  · intro height
    exact symmetry_swapXY.setSafetyHeight_map height p
  · intro s
    exact returnHome_swapXY s p

end Axes

end Toolpath.Path
