import Mathlib.Data.List.Infix
import Toolpath.Machine.Run

/-!
# Reachable machines

Blocks are run one after the other, also after a block that ended in a fault. The path only grows,
and all that it ever gets are moves and dwells at real places.
-/

namespace Toolpath.Machine

open Toolpath.Geometry (Point)
open Toolpath.Path (Waypoint Modal Motion)
open Program (Block)

/-- Runs all blocks, also those after a fault. -/
def execute (m : Machine) (bs : List Block) : Machine :=
  bs.foldl (fun m b => (m.runBlock b).machine) m

inductive Reachable : Machine → Prop where
  | initial : Reachable .initial
  | withTolerances {t : Tolerances} {m : Machine} : Machine.withTolerances t = .ok m → Reachable m
  | runBlock {m : Machine} (b : Block) : Reachable m → Reachable (m.runBlock b).machine

structure Invariant (m : Machine) : Prop where
  start : m.path[0]? = some .initial
  numbers : ∀ w ∈ m.path, w.point.hasNaN = false
  motions : ∀ w ∈ m.path.toList.tail, w.motion = .rapid ∨ w.motion = .linear ∨ w.motion = .dwell
  waits : ∀ w ∈ m.path, w.motion ≠ .dwell → w.modal.dwellTime = 0
  motion : m.modal.motion ≠ .dwell
  override : m.frames.override = false
  frame : 1 ≤ m.frames.number ∧ m.frames.number ≤ 6

/-- A waypoint that a block may add. -/
structure Travelled (w : Waypoint) : Prop where
  number : w.point.hasNaN = false
  motion : w.motion = .rapid ∨ w.motion = .linear ∨ w.motion = .dwell
  wait : w.motion ≠ .dwell → w.modal.dwellTime = 0

/-- What holds of a machine in the middle of a block too, where the override may be on. -/
structure Sound (m : Machine) : Prop where
  path : ∃ added, m.path.toList = .initial :: added ∧ ∀ w ∈ added, Travelled w
  motion : m.modal.motion ≠ .dwell
  wait : m.modal.dwellTime = 0

/-- Some work has led from one machine to the other. -/
structure Onward (m n : Machine) : Prop where
  sound : Sound n
  keeps : m.path.toList <+: n.path.toList

variable {m n k : Machine}

theorem Onward.refl (h : Sound m) : Onward m m := ⟨h, List.prefix_rfl⟩

theorem Onward.trans (h : Onward m n) (h' : Onward n k) : Onward m k :=
  ⟨h'.sound, h.keeps.trans h'.keeps⟩

theorem Sound.position (h : Sound m) : m.position.point.hasNaN = false := by
  obtain ⟨added, hpath, hadded⟩ := h.path
  unfold Machine.position
  rw [Array.back?_eq_getElem?, ← Array.getElem?_toList, ← Array.length_toList,
    ← List.getLast?_eq_getElem?, hpath]
  rcases List.eq_nil_or_concat added with rfl | ⟨added, w, rfl⟩
  · decide
  · simpa [List.getLast?_cons] using (hadded w (by simp)).number

theorem Sound.onward_push (h : Sound m) {w : Waypoint} (hw : Travelled w) :
    Onward m { m with path := m.path.push w } := by
  obtain ⟨added, hpath, hadded⟩ := h.path
  refine ⟨⟨⟨added ++ [w], by simp [hpath], fun v hv => ?_⟩, h.motion, h.wait⟩, by simp⟩
  rcases List.mem_append.1 hv with hv | hv
  · exact hadded v hv
  · obtain rfl := List.mem_singleton.1 hv
    exact hw

theorem push_onward (h : Sound m) {w : Waypoint} (hm : w.motion = .rapid ∨ w.motion = .linear)
    (hd : w.modal.dwellTime = 0) : Onward m (m.push w).machine := by
  unfold push
  split
  · exact .refl h
  · rename_i hnumber
    exact h.onward_push ⟨by simpa using hnumber, hm.imp_right .inl, fun _ => hd⟩

theorem moveTo_onward (h : Sound m) (hm : m.modal.motion = .rapid ∨ m.modal.motion = .linear)
    (p : Point) : Onward m (m.moveTo p).machine :=
  push_onward h hm h.wait

/-- A dwell is not checked, but the tool is at a real place already. -/
theorem dwell_onward (h : Sound m) (seconds : Float) : Onward m (m.dwell seconds) :=
  h.onward_push ⟨h.position, .inr (.inr rfl), fun hm => absurd rfl hm⟩

theorem dwellIfAsked_onward (h : Sound m) (b : Block) : Onward m (m.dwellIfAsked b) := by
  unfold dwellIfAsked
  split
  · exact dwell_onward h _
  · exact .refl h

theorem andThen_onward {o : Outcome Fault} {next : Machine → Outcome Fault}
    (h : Onward m o.machine) (hnext : Sound o.machine → Onward o.machine (next o.machine).machine) :
    Onward m (o.andThen next).machine := by
  unfold Outcome.andThen
  split
  · exact h.trans (hnext h.sound)
  · exact h

theorem pushEach_onward (h : Sound m) {waypoint : Nat → Waypoint}
    (hm : ∀ i, (waypoint i).motion = .linear) (hd : ∀ i, (waypoint i).modal.dwellTime = 0)
    (count i : Nat) : Onward m (m.pushEach waypoint count i).machine := by
  induction count generalizing m i with
  | zero => exact .refl h
  | succ count ih =>
    unfold pushEach
    exact andThen_onward (push_onward h (.inr (hm i)) (hd i)) fun hn => ih hn (i + 1)

theorem arc_onward (h : Sound m) (finish center : Point) (rotations : Float) :
    Onward m (m.arc finish center rotations).machine := by
  unfold arc
  split
  · exact .refl h
  · refine andThen_onward ?_ fun hn => push_onward hn (.inr rfl) h.wait
    exact pushEach_onward h (fun _ => rfl) (fun _ => h.wait) _ _

theorem move_onward (h : Sound m) (b : Block) : Onward m (m.move b).machine := by
  cases hm : m.modal.motion with
  | rapid | linear =>
    simp only [move, hm]
    split
    · exact moveTo_onward h (by simp [hm]) _
    · exact .refl h
  | clockwise | counterclockwise =>
    simp only [move, hm]
    split
    · exact arc_onward h _ _ _
    · exact .refl h
  | unset | dwell =>
    simp only [move, hm]
    split <;> exact .refl h

/-- A change of settings that leaves alone the path, the motion and the dwell time. -/
structure Settled (m n : Machine) : Prop where
  path : n.path = m.path
  motion : n.modal.motion = m.modal.motion
  wait : n.modal.dwellTime = m.modal.dwellTime

theorem Settled.trans (h : Settled m n) (h' : Settled n k) : Settled m k :=
  ⟨h'.path.trans h.path, h'.motion.trans h.motion, h'.wait.trans h.wait⟩

theorem Settled.onward (h : Settled m n) (hm : Sound m) : Onward m n := by
  obtain ⟨hpath, hmotion, hwait⟩ := h
  refine ⟨⟨?_, hmotion ▸ hm.motion, hwait ▸ hm.wait⟩, ?_⟩
  · rw [hpath]
    exact hm.path
  · rw [hpath]

theorem switch_settles (modal : Modal) (code : Float) :
    (switch modal code).motion = modal.motion ∧
      (switch modal code).dwellTime = modal.dwellTime := by
  unfold switch
  split <;> exact ⟨rfl, rfl⟩

theorem foldl_switch_settles (modal : Modal) (codes : List Float) :
    (codes.foldl switch modal).motion = modal.motion ∧
      (codes.foldl switch modal).dwellTime = modal.dwellTime := by
  induction codes generalizing modal with
  | nil => exact ⟨rfl, rfl⟩
  | cons code codes ih =>
    obtain ⟨hmotion, hwait⟩ := switch_settles modal code
    obtain ⟨hmotion', hwait'⟩ := ih (switch modal code)
    exact ⟨hmotion'.trans hmotion, hwait'.trans hwait⟩

theorem setUnits_settles (m : Machine) (b : Block) : Settled m (m.setUnits b) := by
  simp only [setUnits]
  split
  · exact ⟨rfl, rfl, rfl⟩
  · split <;> exact ⟨rfl, rfl, rfl⟩

theorem setFeedrate_settles (m : Machine) (b : Block) : Settled m (m.setFeedrate b) := by
  simp only [setFeedrate]
  split <;> exact ⟨rfl, rfl, rfl⟩

theorem setSpindleSpeed_settles (m : Machine) (b : Block) : Settled m (m.setSpindleSpeed b) := by
  simp only [setSpindleSpeed]
  split <;> exact ⟨rfl, rfl, rfl⟩

theorem setTool_settles (m : Machine) (b : Block) : Settled m (m.setTool b) := by
  simp only [setTool]
  split <;> split <;> exact ⟨rfl, rfl, rfl⟩

theorem setSwitches_settles (m : Machine) (b : Block) : Settled m (m.setSwitches b) := by
  obtain ⟨hmotion, hwait⟩ := foldl_switch_settles m.modal (b.values 'M')
  exact ⟨rfl, hmotion, hwait⟩

theorem setPlane_settles (m : Machine) (b : Block) : Settled m (m.setPlane b) := by
  simp only [setPlane]
  split
  · exact ⟨rfl, rfl, rfl⟩
  · split
    · exact ⟨rfl, rfl, rfl⟩
    · split <;> exact ⟨rfl, rfl, rfl⟩

theorem applyState_settles (m : Machine) (b : Block) : Settled m (m.applyState b) :=
  setUnits_settles m b |>.trans (setFeedrate_settles _ b) |>.trans (setSpindleSpeed_settles _ b)
    |>.trans (setTool_settles _ b) |>.trans (setSwitches_settles _ b)
    |>.trans (setPlane_settles _ b)

theorem setFrame_settles (m : Machine) (b : Block) : Settled m (m.setFrame b).machine := by
  simp only [setFrame]
  split
  · exact ⟨rfl, rfl, rfl⟩
  · split <;> exact ⟨rfl, rfl, rfl⟩

theorem foldl_motionOfCode_ne_dwell {motion : Motion} (h : motion ≠ .dwell) (codes : List Float) :
    codes.foldl motionOfCode motion ≠ .dwell := by
  induction codes generalizing motion with
  | nil => exact h
  | cons code codes ih =>
    refine ih ?_
    unfold motionOfCode
    split
    · split <;> first | exact h | simp
    · exact h

theorem setDistanceMode_settles (m : Machine) (b : Block) : Settled m (m.setDistanceMode b) := by
  simp only [setDistanceMode]
  split
  · exact ⟨rfl, rfl, rfl⟩
  · split <;> exact ⟨rfl, rfl, rfl⟩

theorem setCenterMode_settles (m : Machine) (b : Block) : Settled m (m.setCenterMode b) := by
  simp only [setCenterMode]
  split
  · exact ⟨rfl, rfl, rfl⟩
  · split <;> exact ⟨rfl, rfl, rfl⟩

theorem setMotion_onward (h : Sound m) (b : Block) : Onward m (m.setMotion b) := by
  constructor
  · exact ⟨h.path, foldl_motionOfCode_ne_dwell h.motion _, h.wait⟩
  · exact List.prefix_rfl

theorem applyModes_onward (h : Sound m) (b : Block) : Onward m (m.applyModes b) := by
  have hmodes : Onward m ((m.setDistanceMode b).setCenterMode b) :=
    ((setDistanceMode_settles m b).trans (setCenterMode_settles _ b)).onward h
  exact hmodes.trans (setMotion_onward hmodes.sound b)

theorem apply_onward (h : Sound m) (b : Block) : Onward m (m.apply b).machine := by
  unfold apply
  split
  · exact .refl h
  · have hstate := (applyState_settles m b).onward h
    refine andThen_onward (hstate.trans ((setFrame_settles _ b).onward hstate.sound)) fun hn => ?_
    generalize ((m.applyState b).setFrame b).machine = n at hn ⊢
    split
    · split
      · exact .refl hn
      · rename_i frames _
        have hoffset : Onward n { n with frames } := Settled.onward ⟨rfl, rfl, rfl⟩ hn
        have hmodes := hoffset.trans (applyModes_onward hoffset.sound b)
        exact hmodes.trans (dwellIfAsked_onward hmodes.sound b)
    · have hmodes := applyModes_onward hn b
      have hdwell := hmodes.trans (dwellIfAsked_onward hmodes.sound b)
      exact hdwell.trans (move_onward hdwell.sound b)

theorem runBlock_onward (h : Sound m) (b : Block) : Onward m (m.runBlock b).machine := by
  unfold runBlock
  split
  · exact .refl h
  · have happly := apply_onward h b
    exact happly.trans (Settled.onward ⟨rfl, rfl, rfl⟩ happly.sound)

theorem override_runBlock (h : m.frames.override = false) (b : Block) :
    (m.runBlock b).machine.frames.override = false := by
  unfold runBlock
  split
  · exact h
  · rfl

theorem Sound.invariant (h : Sound m) (ho : m.frames.override = false) : Invariant m := by
  obtain ⟨added, hpath, hadded⟩ := h.path
  have hmem : ∀ w ∈ m.path, w = .initial ∨ Travelled w := by
    intro w hw
    rw [← Array.mem_toList_iff, hpath] at hw
    exact (List.mem_cons.1 hw).imp_right (hadded w)
  exact {
    start := by
      rw [← Array.getElem?_toList, hpath]
      rfl
    numbers := by
      intro w hw
      rcases hmem w hw with rfl | hw
      · decide
      · exact hw.number
    motions := by
      intro w hw
      rw [hpath] at hw
      exact (hadded w hw).motion
    waits := by
      intro w hw hm
      rcases hmem w hw with rfl | hw
      · rfl
      · exact hw.wait hm
    motion := h.motion
    override := ho
    frame := by
      unfold Frames.number
      omega }

theorem atOrigin_sound (t : Tolerances) : Sound (atOrigin t) where
  path := ⟨[], rfl, by simp⟩
  motion := by simp [atOrigin, Modal.initial]
  wait := rfl

theorem eq_atOrigin_of_withTolerances {t : Tolerances} (h : Machine.withTolerances t = .ok m) :
    m = atOrigin t := by
  rw [Machine.withTolerances] at h
  cases hc : t.check with
  | error e =>
    rw [hc] at h
    cases h
  | ok u =>
    rw [hc] at h
    exact (Except.ok.inj h).symm

theorem reachable_sound (h : Reachable m) : Sound m ∧ m.frames.override = false := by
  induction h with
  | initial => exact ⟨atOrigin_sound _, rfl⟩
  | withTolerances ht =>
    obtain rfl := eq_atOrigin_of_withTolerances ht
    exact ⟨atOrigin_sound _, rfl⟩
  | runBlock b _ ih =>
    exact ⟨(runBlock_onward ih.1 b).sound, override_runBlock ih.2 b⟩

theorem execute_onward (h : Sound m) (bs : List Block) : Onward m (m.execute bs) := by
  unfold execute
  induction bs generalizing m with
  | nil => exact .refl h
  | cons b bs ih =>
    have hstep := runBlock_onward h b
    exact hstep.trans (ih hstep.sound)

/-- Faults break nothing, and no later block takes back a waypoint. -/
theorem reachable_invariant (h : Reachable m) (bs : List Block) :
    Invariant m ∧ m.path.toList <+: (m.execute bs).path.toList := by
  obtain ⟨hsound, ho⟩ := reachable_sound h
  exact ⟨hsound.invariant ho, (execute_onward hsound bs).keeps⟩

def feedBlock : Block := ⟨[⟨'G', 1⟩, ⟨'X', 2⟩, ⟨'F', 100⟩], none⟩

def faultyBlock : Block := ⟨[⟨'G', 4⟩, ⟨'P', 1⟩, ⟨'G', 2⟩, ⟨'X', 0⟩], none⟩

def fed : Machine := (initial.runBlock feedBlock).machine

theorem faulty_keeps_invariant :
    Reachable (fed.runBlock faultyBlock).machine ∧ (fed.runBlock faultyBlock).fault.isSome ∧
      (fed.runBlock faultyBlock).machine.path.size = 3 ∧
      Invariant (fed.runBlock faultyBlock).machine ∧
      (fed.runBlock faultyBlock).machine.path.toList <+:
        ((fed.runBlock faultyBlock).machine.execute [feedBlock]).path.toList := by
  have hreach : Reachable (fed.runBlock faultyBlock).machine :=
    .runBlock faultyBlock (.runBlock feedBlock .initial)
  have hinvariant := reachable_invariant hreach [feedBlock]
  exact ⟨hreach, by decide +kernel, by decide +kernel, hinvariant.1, hinvariant.2⟩

end Toolpath.Machine
