import Toolpath.Proofs.Machine.Chords
import Toolpath.Proofs.Machine.Reachable
import Toolpath.Proofs.Machine.Stages

/-!
# What a block adds to the path

At most one dwell where the tool is, and then one move or the chords of an arc. All words that set
something have been applied by then, so what is added carries the settings that the block leaves in
force.
-/

namespace Toolpath.Machine

open Toolpath.Geometry (Point)
open Toolpath.Path (Waypoint Modal Motion)
open Program (Block)

def OnArc (m : Machine) : Prop := m.modal.motion = .clockwise ∨ m.modal.motion = .counterclockwise

/-- At most one straight move, or the chords of an arc. -/
def OneMotion (m : Machine) (moves : List Waypoint) : Prop :=
  moves.length ≤ 1 ∧ (∀ w ∈ moves, w.motion = .rapid ∨ w.motion = .linear) ∨
    m.OnArc ∧ ∀ w ∈ moves, w.motion = .linear

/-- The settings of a waypoint are those of the machine, but for its own motion and dwell time. -/
def Carries (m : Machine) (w : Waypoint) : Prop :=
  w.modal = { m.modal with motion := w.motion, dwellTime := w.modal.dwellTime }

/-- What a move adds to the path of a machine, and all that it changes. -/
structure Moved (m n : Machine) (moves : List Waypoint) : Prop where
  machine : n = m.withPath (m.path ++ moves)
  motions : m.OneMotion moves
  settings : ∀ w ∈ moves, m.Carries w

/-- The dwells and the moves that a block adds to the path of `m`, with the outcome `o`. -/
structure Additions (m : Machine) (b : Block) (o : Outcome Fault) (dwells moves : List Waypoint) :
    Prop where
  path : o.machine.path.toList = m.path.toList ++ dwells ++ moves
  wait : dwells.length ≤ 1 ∧ ∀ w ∈ dwells, w.motion = .dwell ∧ w.point = m.position.point
  asked : dwells ≠ [] → b.hasCode 'G' 4 = true
  waits : o.fault = none → b.hasCode 'G' 4 = true → dwells ≠ []
  motions : o.machine.OneMotion moves
  offset : b.hasCode 'G' 10 = true → moves = []
  goes : o.fault = none → b.hasCode 'G' 10 = false → hasAxis b = true → moves ≠ []
  settings : ∀ w ∈ dwells ++ moves, o.machine.Carries w

variable {m : Machine} {b : Block}

section Moves

theorem oneMotion_nil (m : Machine) : m.OneMotion [] := .inl ⟨by simp, by simp⟩

theorem moved_nil (m : Machine) : Moved m m [] :=
  ⟨by simp [withPath], oneMotion_nil m, by simp⟩

theorem moved_moveTo (h : m.modal.motion = .rapid ∨ m.modal.motion = .linear)
    (p : Point) : ∃ moves, Moved m (m.moveTo p).machine moves ∧
      ((m.moveTo p).fault = none → moves ≠ []) := by
  unfold moveTo push
  split
  · exact ⟨[], moved_nil m, by simp [Outcome.stopped]⟩
  · refine ⟨[⟨m.modal, p⟩], ⟨?_, .inl ⟨le_rfl, ?_⟩, ?_⟩, by simp⟩
    · simp [Outcome.done, withPath]
    · simpa [Waypoint.motion] using h
    · simp [Carries, Waypoint.motion]

theorem modal_of_mem_waypointsOf {a : Arc} {w : Waypoint} (h : w ∈ m.waypointsOf a) :
    w.modal = m.chordModal := by
  rcases List.mem_append.1 h with h | h
  · exact modal_of_mem_chordEnds h
  · rw [List.mem_singleton.1 h]
    rfl

theorem moved_arc (h : m.OnArc) (finish center : Point) (rotations : Float) :
    ∃ moves, Moved m (m.arc finish center rotations).machine moves ∧
      ((m.arc finish center rotations).fault = none → moves ≠ []) := by
  cases hcheck : m.checkArc finish center rotations with
  | error e =>
    rw [arc_of_refused hcheck]
    exact ⟨[], moved_nil m, by simp [Outcome.stopped]⟩
  | ok u =>
    rw [arc_of_checked hcheck]
    generalize hws : m.waypointsOf (m.arcOf finish center rotations) = ws
    have hmodal : ∀ w ∈ ws.takeWhile isReal, w.modal = m.chordModal := by
      intro w hw
      rw [← hws] at hw
      exact modal_of_mem_waypointsOf ((List.takeWhile_sublist isReal).mem hw)
    refine ⟨ws.takeWhile isReal, ⟨rfl, .inr ⟨h, fun w hw => ?_⟩, fun w hw => ?_⟩, ?_⟩
    · rw [Waypoint.motion, hmodal w hw]
      rfl
    · rw [Carries, Waypoint.motion, hmodal w hw]
      rfl
    · intro hfault hnil
      -- Without a fault all points are real, and the end of the arc is one of them.
      have hall : ws.all isReal = true := by
        by_contra hunreal
        rw [travel_of_unreal m (Bool.eq_false_iff.2 hunreal)] at hfault
        cases hfault
      rw [List.takeWhile_eq_self_iff.2 (List.all_eq_true.1 hall), ← hws] at hnil
      exact List.append_ne_nil_of_right_ne_nil _ (List.cons_ne_nil _ _) hnil

theorem moved_move (m : Machine) (b : Block) : ∃ moves, Moved m (m.move b).machine moves ∧
    ((m.move b).fault = none → hasAxis b = true → moves ≠ []) := by
  cases hm : m.modal.motion with
  | rapid | linear =>
    simp only [move, hm]
    split
    · obtain ⟨moves, hmoved, hgoes⟩ := moved_moveTo (m := m) (by simp [hm]) (m.target b).finish
      exact ⟨moves, hmoved, fun hfault _ => hgoes hfault⟩
    · exact ⟨[], moved_nil m, fun _ haxis => absurd haxis ‹_›⟩
  | clockwise | counterclockwise =>
    simp only [move, hm]
    split
    · obtain ⟨moves, hmoved, hgoes⟩ := moved_arc (m := m) (by simp [OnArc, hm])
        (m.target b).finish (m.target b).center (b.valueD 'P' 1)
      exact ⟨moves, hmoved, fun hfault _ => hgoes hfault⟩
    · rename_i hneither
      refine ⟨[], moved_nil m, fun _ haxis => absurd ?_ hneither⟩
      rw [haxis, Bool.true_or]
  | unset | dwell =>
    simp only [move, hm]
    split
    · exact ⟨[], moved_nil m, by simp [Outcome.stopped]⟩
    · exact ⟨[], moved_nil m, fun _ haxis => absurd haxis ‹_›⟩

theorem exists_move_eq_withPath (m : Machine) (b : Block) :
    ∃ path, (m.move b).machine = m.withPath path := by
  obtain ⟨moves, hmoved, -⟩ := moved_move m b
  exact ⟨_, hmoved.machine⟩

end Moves

section Dwells

theorem position_eq_of_path {n : Machine} (h : n.path = m.path) : n.position = m.position := by
  unfold Machine.position
  rw [h]

theorem ready_dwells (m : Machine) (b : Block) : ∃ dwells : List Waypoint,
    (m.ready b).path.toList = m.path.toList ++ dwells ∧
      (dwells.length ≤ 1 ∧ ∀ w ∈ dwells, w.motion = .dwell ∧ w.point = m.position.point) ∧
      (dwells ≠ [] ↔ b.hasCode 'G' 4 = true) ∧ ∀ w ∈ dwells, (m.ready b).Carries w := by
  have hpath : (m.applyModes b).path = m.path := (applyModes_blind b).path m
  cases hcode : b.hasCode 'G' 4 with
  | false => exact ⟨[], by simp [ready, dwellIfAsked, hcode, hpath], by simp, by simp, by simp⟩
  | true =>
    have hready : m.ready b = (m.applyModes b).dwell (b.valueD 'P' 0) := if_pos hcode
    obtain ⟨w, hw⟩ : ∃ w : Waypoint, w = ⟨{ (m.applyModes b).modal with
      motion := .dwell, dwellTime := b.valueD 'P' 0 }, m.position.point⟩ := ⟨_, rfl⟩
    refine ⟨[w], ?_, ⟨le_rfl, ?_⟩, by simp, ?_⟩
    · rw [hready, hw, dwell, position_eq_of_path hpath, hpath, Array.toList_push]
    · rintro v hv
      rw [List.mem_singleton.1 hv, hw]
      exact ⟨rfl, rfl⟩
    · rintro v hv
      rw [List.mem_singleton.1 hv, hw, hready]
      rfl

end Dwells

theorem apply_adds (m : Machine) (b : Block) :
    ∃ dwells moves, Additions m b (m.apply b) dwells moves := by
  have hcourse := apply_course m b
  generalize m.apply b = o at hcourse ⊢
  cases hcourse with
  | unsupported h =>
    exact ⟨[], [], by simp [Outcome.stopped], by simp, by simp, by simp [Outcome.stopped],
      oneMotion_nil _, by simp, by simp [Outcome.stopped], by simp⟩
  | badOffset hb hcode h =>
    exact ⟨[], [], by simp [Outcome.stopped, path_prepared], by simp, by simp,
      by simp [Outcome.stopped], oneMotion_nil _, by simp, by simp [Outcome.stopped], by simp⟩
  | @offset frames hb hcode h =>
    obtain ⟨n, hn⟩ : ∃ n : Machine, n = { m.prepared b with frames } := ⟨_, rfl⟩
    have hpath : n.path = m.path := hn ▸ path_prepared m b
    obtain ⟨dwells, hready, hwait, hasked, hsettings⟩ := ready_dwells n b
    rw [hpath] at hready
    rw [position_eq_of_path hpath] at hwait
    rw [← hn]
    exact ⟨dwells, [], by simpa [Outcome.done] using hready, hwait, hasked.1, fun _ => hasked.2,
      oneMotion_nil _, by simp, by simp [hcode], by simpa [Outcome.done] using hsettings⟩
  | move hb hcode =>
    have hpath := path_prepared m b
    obtain ⟨dwells, hready, hwait, hasked, hsettings⟩ := ready_dwells (m.prepared b) b
    obtain ⟨moves, hmoved, hgoes⟩ := moved_move ((m.prepared b).ready b) b
    rw [hpath] at hready
    rw [position_eq_of_path hpath] at hwait
    refine ⟨dwells, moves, ?_, hwait, hasked.1, fun _ => hasked.2, ?_, by simp [hcode],
      fun hfault _ => hgoes hfault, ?_⟩
    · rw [hmoved.machine, ← hready]
      simp [withPath]
    · rw [hmoved.machine]
      exact hmoved.motions
    · rw [hmoved.machine]
      intro w hw
      exact (List.mem_append.1 hw).elim (hsettings w) (hmoved.settings w)

/-- A block adds at most one dwell, where the tool is, and then at most one move, or chords when it
is on an arc. It does so also when it ends in a fault. All that it adds carries the settings that
are in force afterwards. -/
theorem runBlock_adds (m : Machine) (b : Block) :
    ∃ dwells moves, Additions m b (m.runBlock b) dwells moves := by
  cases hempty : b.isEmpty with
  | true =>
    have haxis : hasAxis b = false := by
      simp [hasAxis, Block.value?, Block.values, List.isEmpty_iff.1 hempty]
    rw [runBlock, if_pos hempty]
    exact ⟨[], [], by simp [Outcome.done], by simp, by simp, by simp [hasCode_of_isEmpty hempty],
      oneMotion_nil _, by simp, by simp [haxis], by simp⟩
  | false =>
    rw [runBlock, if_neg (Bool.eq_false_iff.1 hempty)]
    obtain ⟨dwells, moves, h⟩ := apply_adds m b
    exact ⟨dwells, moves, h.path, h.wait, h.asked, h.waits, h.motions, h.offset, h.goes, h.settings⟩

end Toolpath.Machine
