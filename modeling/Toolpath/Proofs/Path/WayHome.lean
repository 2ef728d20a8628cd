import Toolpath.Proofs.Path.Homing
import Toolpath.Proofs.Path.SafetyPlane

/-!
# The steps of the way home

From wherever a path ends, at most three rapid moves lead to the origin. They cross over at the
safety height, none of them stays in place, and a path that has come home stays as it is.
-/

namespace Toolpath.Path

open Toolpath.Geometry (Point)

/-- A move to another place. It leaves the place in the XY plane only at the given height. -/
structure HomewardStep (height : Float) (v w : Waypoint) : Prop where
  elsewhere : ¬ (w.point.sameXY v.point = true ∧ (w.point.z == v.point.z) = true)
  level : w.point.sameXY v.point = false →
    (v.point.z == height) = true ∧ (w.point.z == height) = true

structure SwitchesOff (s : Shutdown) (v w : Waypoint) : Prop where
  rest : w = { v with modal := { v.modal with
    spindleOn := w.modal.spindleOn, mist := w.modal.mist, flood := w.modal.flood } }
  spindle : w.modal.spindleOn = true ↔ v.modal.spindleOn = true ∧ s.spindle = false
  mist : w.modal.mist = true ↔ v.modal.mist = true ∧ s.coolant = false
  flood : w.modal.flood = true ↔ v.modal.flood = true ∧ s.coolant = false

/-- Moves are added to the path, which ends with `last`, and at the end something is switched
off. -/
structure ComesHome (s : Shutdown) (p : Path) (last : Waypoint) (moves q : Path) : Prop where
  few : moves.length ≤ 3
  settings : ∀ w ∈ moves, w.modal = { last.modal with motion := .rapid }
  steps : (last :: moves).IsChain (HomewardStep (safetyHeight p))
  ending : ∃ front home final, p ++ moves = front ++ [home] ∧ SwitchesOff s home final ∧
    atOrigin final = true ∧ q = front ++ [final]

variable {height : Float} {last v : Waypoint} {p : Path}

section Steps

theorem HomewardStep.upright (hplace : v.point.sameXY v.point = true) {z : Float}
    (hz : ¬ (v.point.z == z) = true) :
    HomewardStep height v ((v.withMotion .rapid).withZ z) where
  elsewhere := fun hsame => hz (Number.beq_symm hsame.2)
  level := fun hleaves => absurd hplace (Bool.eq_false_iff.1 hleaves)

theorem HomewardStep.across (haway : ¬ (v.point.x == 0 && v.point.y == 0) = true)
    (hlevel : (v.point.z == height) = true) :
    HomewardStep height v ((v.withMotion .rapid).withXY 0 0) where
  elsewhere := by
    rintro ⟨hsame, -⟩
    obtain ⟨hx, hy⟩ := Point.sameXY_iff.1 hsame
    exact haway (Bool.and_eq_true_iff.2 ⟨Number.beq_symm hx, Number.beq_symm hy⟩)
  level := fun _ => ⟨hlevel, hlevel⟩

theorem isChain_crossing (haway : ¬ (v.point.x == 0 && v.point.y == 0) = true)
    (hlevel : (v.point.z == height) = true) :
    (v :: (v.withMotion .rapid).withXY 0 0 :: if v.point.z == 0 then []
      else [((v.withMotion .rapid).withXY 0 0).withZ 0]).IsChain (HomewardStep height) := by
  refine List.isChain_cons_cons.2 ⟨.across haway hlevel, ?_⟩
  by_cases hfloor : (v.point.z == 0) = true
  · rw [if_pos hfloor]
    exact .singleton _
  · rw [if_neg hfloor]
    have hzero := Number.beq_self Number.isNaN_zero
    have hplace : ((v.withMotion .rapid).withXY 0 0).point.sameXY
        ((v.withMotion .rapid).withXY 0 0).point = true := Point.sameXY_iff.2 ⟨hzero, hzero⟩
    exact List.isChain_pair.2 (.upright (v := (v.withMotion .rapid).withXY 0 0) hplace hfloor)

theorem isChain_homeward (hlast : last.point.hasNaN = false) (haway : atOrigin last = false)
    (hheight : height.isNaN = false) :
    (last :: homeward height last).IsChain (HomewardStep height) := by
  have hplace := Point.sameXY_refl hlast
  by_cases hxy : (last.point.x == 0 && last.point.y == 0) = true
  · have hz : ¬ (last.point.z == 0) = true := by
      intro hzero
      rw [atOrigin, hxy, hzero] at haway
      cases haway
    rw [homeward, if_pos hxy]
    exact List.isChain_pair.2 (.upright hplace hz)
  · by_cases hlevel : (last.point.z == height) = true
    · have hway := isChain_crossing hxy hlevel
      simp only [homeward, if_neg hxy, if_pos hlevel]
      exact hway
    · have hlifted := isChain_crossing (v := (last.withMotion .rapid).withZ height) hxy
        (Number.beq_self hheight)
      simp only [homeward, if_neg hxy, if_neg hlevel]
      exact List.isChain_cons_cons.2 ⟨.upright hplace hlevel, hlifted⟩

theorem length_homeward_le (height : Float) (last : Waypoint) :
    (homeward height last).length ≤ 3 := by
  by_cases hxy : (last.point.x == 0 && last.point.y == 0) = true
  · rw [homeward, if_pos hxy]
    exact Nat.le_add_left 1 2
  · simp only [homeward, if_neg hxy]
    split_ifs <;> simp

end Steps

section Shutdown

theorem switchesOff_apply (s : Shutdown) (w : Waypoint) : SwitchesOff s w (s.apply w) where
  rest := rfl
  spindle := by simp [Shutdown.apply]
  mist := by simp [Shutdown.apply]
  flood := by simp [Shutdown.apply]

theorem apply_apply (s : Shutdown) (w : Waypoint) : s.apply (s.apply w) = s.apply w := by
  simp [Shutdown.apply]

theorem returnHome_of_atOrigin (s : Shutdown) (h : atOrigin last = true) (front : Path) :
    returnHome s (front ++ [last]) = front ++ [s.apply last] := by
  rw [returnHome, List.getLast?_concat]
  dsimp only
  rw [if_pos h, mapLast_concat]

theorem returnHome_of_away (s : Shutdown) (h : atOrigin last = false) (front : Path) :
    returnHome s (front ++ [last]) =
      front ++ [last] ++ mapLast s.apply (homeward (safetyHeight (front ++ [last])) last) := by
  rw [returnHome, List.getLast?_concat]
  dsimp only
  rw [h, if_neg Bool.false_ne_true]

theorem returnHome_returnHome (s : Shutdown) (p : Path) :
    returnHome s (returnHome s p) = returnHome s p := by
  by_cases hp : p = []
  · rw [hp]
    rfl
  · obtain ⟨front, last, hhome, horigin, -⟩ := returnHome_eq_concat s hp
    have hstays : atOrigin (s.apply last) = true := horigin
    rw [hhome, returnHome_of_atOrigin s hstays, apply_apply]

end Shutdown

/-- The way home from any last waypoint without NaN. -/
theorem returnHome_comesHome (s : Shutdown) (hlast : p.getLast? = some last)
    (hnumber : last.point.hasNaN = false) :
    (∃ moves, ComesHome s p last moves (returnHome s p)) ∧
      returnHome s (returnHome s p) = returnHome s p := by
  refine ⟨?_, returnHome_returnHome s p⟩
  obtain ⟨before, rfl⟩ := List.getLast?_eq_some_iff.1 hlast
  by_cases horigin : atOrigin last = true
  · refine ⟨[], by simp, by simp, .singleton last, ?_⟩
    exact ⟨before, last, s.apply last, List.append_nil _, switchesOff_apply s last, horigin,
      returnHome_of_atOrigin s horigin before⟩
  · rw [Bool.not_eq_true] at horigin
    obtain ⟨front, home, hway, hhome⟩ := homeward_eq_concat (safetyHeight (before ++ [last])) last
    refine ⟨_, length_homeward_le _ last, fun w hw => homeward_modal hw,
      isChain_homeward hnumber horigin (isNaN_safetyHeight _), ?_⟩
    refine ⟨before ++ [last] ++ front, home, s.apply home, ?_, switchesOff_apply s home, hhome, ?_⟩
    · rw [hway, ← List.append_assoc]
    · rw [returnHome_of_away s horigin, hway, mapLast_concat, ← List.append_assoc]

def pocketEnd : Waypoint :=
  ⟨{ Modal.initial with motion := .linear, spindleOn := true, flood := true }, ⟨5, 5, -1⟩⟩

theorem pocketEnd_comesHome :
    [Waypoint.initial, pocketEnd].getLast? = some pocketEnd ∧ pocketEnd.point.hasNaN = false ∧
      (∃ moves, ComesHome ⟨true, false⟩ [.initial, pocketEnd] pocketEnd moves
        (returnHome ⟨true, false⟩ [.initial, pocketEnd])) ∧
      returnHome ⟨true, false⟩ (returnHome ⟨true, false⟩ [.initial, pocketEnd]) =
        returnHome ⟨true, false⟩ [.initial, pocketEnd] :=
  ⟨rfl, by decide, returnHome_comesHome _ rfl (by decide)⟩

end Toolpath.Path
