import Mathlib.Data.List.Basic
import Toolpath.Path.Homing

/-!
# The end of the way home

A path that is not empty ends at the origin after the way home, and there alone something is
switched off. The waypoints on the way have the settings of the last one before it.
-/

namespace Toolpath.Path

def SameSettings (v w : Waypoint) : Prop := ∃ motion, w.modal = { v.modal with motion }

variable {height : Float} {p : Path} {last v w : Waypoint}

theorem SameSettings.refl (w : Waypoint) : SameSettings w w := ⟨w.modal.motion, rfl⟩

theorem mapLast_concat (f : Waypoint → Waypoint) (front : Path) (last : Waypoint) :
    mapLast f (front ++ [last]) = front ++ [f last] := by
  unfold mapLast
  rw [List.getLast?_concat, List.dropLast_concat]

theorem mapLast_map {f g : Waypoint → Waypoint} (h : ∀ w, f (g w) = g (f w)) (p : Path) :
    mapLast f (p.map g) = (mapLast f p).map g := by
  rcases List.eq_nil_or_concat p with rfl | ⟨front, last, rfl⟩
  · rfl
  · rw [List.concat_eq_append, List.map_append, List.map_singleton, mapLast_concat, mapLast_concat,
      List.map_append, List.map_singleton, h]

/-- Where the tool crosses over to the origin, and what it does before. -/
theorem homeward_cases (height : Float) (last : Waypoint) :
    (last.point.x == 0 && last.point.y == 0) = true ∧
        homeward height last = [(last.withMotion .rapid).withZ 0] ∨
      ∃ lifts lifted, (∀ w ∈ lifts, w = lifted) ∧ lifted.modal = (last.withMotion .rapid).modal ∧
        homeward height last = lifts ++ [lifted.withXY 0 0] ++
          (if lifted.point.z == 0 then [] else [(lifted.withXY 0 0).withZ 0]) := by
  unfold homeward
  dsimp only
  split
  · exact .inl ⟨‹_›, rfl⟩
  · refine .inr ?_
    split
    · exact ⟨[], last.withMotion .rapid, by simp, rfl, rfl⟩
    · exact ⟨[(last.withMotion .rapid).withZ height], _, fun w hw => List.mem_singleton.1 hw, rfl,
        rfl⟩

theorem homeward_modal (hw : w ∈ homeward height last) :
    w.modal = { last.modal with motion := .rapid } := by
  rcases homeward_cases height last with ⟨-, hway⟩ | ⟨lifts, lifted, hlifts, hmodal, hway⟩
  · rw [hway] at hw
    obtain rfl := List.mem_singleton.1 hw
    rfl
  · rw [hway] at hw
    simp only [List.mem_append, List.mem_singleton] at hw
    rcases hw with (hw | rfl) | hw
    · rw [hlifts w hw, hmodal]
      rfl
    · exact hmodal
    · split at hw
      · cases hw
      · obtain rfl := List.mem_singleton.1 hw
        exact hmodal

theorem homeward_sameSettings (hw : w ∈ homeward height last) : SameSettings last w :=
  ⟨.rapid, homeward_modal hw⟩

theorem homeward_eq_concat (height : Float) (last : Waypoint) :
    ∃ front home, homeward height last = front ++ [home] ∧ atOrigin home = true := by
  have hzero : ((0 : Float) == 0) = true := by decide
  rcases homeward_cases height last with ⟨hplace, hway⟩ | ⟨lifts, lifted, -, -, hway⟩
  · refine ⟨[], _, hway, ?_⟩
    simp only [atOrigin, Waypoint.withZ, Waypoint.withPoint, Waypoint.withMotion, hplace, hzero,
      Bool.and_self]
  · rw [hway]
    by_cases hfloor : (lifted.point.z == 0) = true
    · refine ⟨lifts, lifted.withXY 0 0, by rw [if_pos hfloor, List.append_nil], ?_⟩
      simp only [atOrigin, Waypoint.withXY, Waypoint.withPoint, hzero, hfloor, Bool.and_self]
    · refine ⟨lifts ++ [lifted.withXY 0 0], (lifted.withXY 0 0).withZ 0, by rw [if_neg hfloor], ?_⟩
      simp only [atOrigin, Waypoint.withZ, Waypoint.withXY, Waypoint.withPoint, hzero,
        Bool.and_self]

theorem returnHome_eq_concat (s : Shutdown) (hp : p ≠ []) :
    ∃ front last, returnHome s p = front ++ [s.apply last] ∧ atOrigin last = true ∧
      ∀ w ∈ front ++ [last], ∃ v ∈ p, SameSettings v w := by
  obtain ⟨before, last, rfl⟩ := (List.eq_nil_or_concat p).resolve_left hp
  rw [List.concat_eq_append]
  unfold returnHome
  rw [List.getLast?_concat]
  dsimp only
  split
  · rename_i hhome
    exact ⟨before, last, mapLast_concat _ _ _, hhome, fun w hw => ⟨w, hw, .refl w⟩⟩
  · obtain ⟨front, home, hway, hhome⟩ :=
      homeward_eq_concat (safetyHeight (before ++ [last])) last
    refine ⟨before ++ [last] ++ front, home, ?_, hhome, ?_⟩
    · rw [hway, mapLast_concat, ← List.append_assoc]
    · intro w hw
      rw [List.append_assoc, ← hway] at hw
      rcases List.mem_append.1 hw with hw | hw
      · exact ⟨w, hw, .refl w⟩
      · exact ⟨last, by simp, homeward_sameSettings hw⟩

end Toolpath.Path
