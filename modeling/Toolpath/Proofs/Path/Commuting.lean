import Toolpath.Path.Retraction
import Toolpath.Proofs.Path.Redrilling

/-!
# Drilling and lifting

Drilling acts on moves straight down, and all that it writes for them goes down. Lifting acts on
moves straight up. Neither changes where a move ends, so the two find the same moves to act on in
either order.
-/

namespace Toolpath.Path

open Toolpath.Geometry (Point)
open Number (lt_iff le_iff)

section Rises

variable {last : Point} {w : Waypoint}

theorem not_rises_of_not_le (h : ¬ last.z ≤ w.point.z) : rises last w = false := by
  rw [Bool.eq_false_iff]
  intro hrise
  have hup : w.point.sameXY last = true ∧ last.z < w.point.z := by simpa [rises] using hrise
  rw [lt_iff] at hup
  exact h (le_iff.2 ⟨hup.2.1, hup.2.2.1, hup.2.2.2.le⟩)

theorem not_plunge_of_rises (h : rises last w = true) : ¬ Plunge last w := by
  intro hplunge
  have hdown := hplunge.down
  have hlevel : ¬ last.z ≤ w.point.z := by
    intro hle
    rw [lt_iff] at hdown
    rw [le_iff] at hle
    omega
  rw [not_rises_of_not_le hlevel] at h
  cases h

theorem retract_of_rises (h : rises last w = true) :
    retract last w = (w.point, [w.withMotion .rapid]) := by
  simp [retract, h]

theorem retract_of_not_rises (h : rises last w = false) : retract last w = (w.point, [w]) := by
  simp [retract, h]

theorem lift_concat (p : Path) (w : Waypoint) : lift (p ++ [w]) =
    lift p ++ [if rises (endPoint p) w then w.withMotion .rapid else w] := by
  have hlast : memory retract .origin p = endPoint p := by
    induction p using List.reverseRecOn with
    | nil => rfl
    | append_singleton p w ih =>
      rw [memory, List.foldl_append, endPoint_concat]
      rfl
  rw [lift, walk_append, hlast]
  rfl

end Rises

namespace Drilled

variable {d : Drilled} {w : Waypoint}

theorem last_drillStep (d : Drilled) (w : Waypoint) : (drillStep d w).1.last = w.point := by
  generalize hr : drillStep d w = r
  cases step_eq_iff.1 hr <;> rfl

/-- What drilling writes goes up only where it has read a move up. -/
theorem retract_drillStep (h : rises d.last w = false) :
    walk retract d.last (drillStep d w).2 = (drillStep d w).2 ∧
      memory retract d.last (drillStep d w).2 = w.point := by
  have hone : ∀ {last : Point} {v : Waypoint}, rises last v = false →
      walk retract last [v] = [v] ∧ memory retract last [v] = v.point := by
    intro last v hv
    simp [retract_of_not_rises hv]
  generalize hr : drillStep d w = r
  cases step_eq_iff.1 hr with
  | travel _ => exact hone h
  | fed _ _ => exact hone h
  | cleared _ _ _ _ => exact hone (v := w.withMotion .rapid) h
  | @deeper depth _ _ hstart hz =>
    -- first down to the cleared depth, then down through new material
    have hfast : rises d.last ((w.withZ depth).withMotion .rapid) = false :=
      not_rises_of_not_le hstart
    have hrest : rises (w.withZ depth).point w = false := not_rises_of_not_le hz
    obtain ⟨hwritten, hmemory⟩ := hone hrest
    rw [walk_cons, memory_cons, retract_of_not_rises hfast]
    exact ⟨congrArg (_ :: ·) hwritten, hmemory⟩

theorem step_comm (d : Drilled) (w : Waypoint) :
    walk retract d.last (drillStep d w).2 = walk drillStep d (retract d.last w).2 ∧
      memory drillStep d (retract d.last w).2 = (drillStep d w).1 ∧
      memory retract d.last (drillStep d w).2 = w.point := by
  by_cases hrise : rises d.last w = true
  · have htravel : drillStep d w = ({ d with last := w.point }, [w]) :=
      step_eq_iff.2 (.travel (not_plunge_of_rises hrise))
    have hlifted : drillStep d (w.withMotion .rapid) =
        ({ d with last := w.point }, [w.withMotion .rapid]) :=
      step_eq_iff.2 (.travel (not_plunge_rapid d.last w))
    simp [retract_of_rises hrise, htravel, hlifted]
  · rw [Bool.not_eq_true] at hrise
    obtain ⟨hwritten, hmemory⟩ := retract_drillStep hrise
    rw [retract_of_not_rises hrise]
    exact ⟨by simpa using hwritten, rfl, hmemory⟩

end Drilled

theorem lift_drill_comm (p : Path) : lift (drill p) = drill (lift p) := by
  have hwritten : ∀ (d : Drilled) (last : Point) (w : Waypoint), d.last = last →
      walk retract last (drillStep d w).2 = walk drillStep d (retract last w).2 := by
    rintro d _ w rfl
    exact (Drilled.step_comm d w).1
  have hmemory : ∀ (d : Drilled) (last : Point) (w : Waypoint), d.last = last →
      memory drillStep d (retract last w).2 = (drillStep d w).1 ∧
        memory retract last (drillStep d w).2 = (retract last w).1 ∧
        (drillStep d w).1.last = (retract last w).1 := by
    rintro d _ w rfl
    obtain ⟨-, hdrill, hlift⟩ := Drilled.step_comm d w
    exact ⟨hdrill, hlift, Drilled.last_drillStep d w⟩
  exact walk_walk_comm hwritten hmemory (s := { last := .origin, depths := ∅ }) rfl p

end Toolpath.Path
