import Toolpath.Machine.Run

/-!
# Where the tool is, and how it came there

A machine looks at its path in one place only: the point where it is. Two machines that differ in
the path before that point, and in the settings it was reached with, do the same from there on.
-/

namespace Toolpath.Machine

open Toolpath.Geometry (Point)
open Toolpath.Path (Waypoint)
open Program (Block)

def withPath (m : Machine) (path : Array Waypoint) : Machine := { m with path }

/-- Two machines that differ at most in how they came to where they are. -/
structure Twins (m n : Machine) : Prop where
  settings : n = m.withPath n.path
  place : m.position.point = n.position.point

/-- Two machines have gone on from `m` and `n` in the same way. -/
structure InStep (m n m' n' : Machine) : Prop where
  twins : Twins m' n'
  added : ∃ ws, m'.path.toList = m.path.toList ++ ws ∧ n'.path.toList = n.path.toList ++ ws

/-- Two pieces of work have gone on in the same way and ended in the same way. -/
structure Outcome.InStep {ε : Type} (m n : Machine) (o p : Outcome ε) : Prop where
  fault : o.fault = p.fault
  machine : Machine.InStep m n o.machine p.machine

/-- A change of settings that neither reads nor writes the path. -/
def Blind (f : Machine → Machine) : Prop :=
  ∀ m path, f (m.withPath path) = (f m).withPath path

variable {m n m' n' m'' n'' : Machine}

theorem InStep.refl (h : Twins m n) : InStep m n m n := ⟨h, [], by simp⟩

theorem InStep.trans (h : InStep m n m' n') (h' : InStep m' n' m'' n'') :
    InStep m n m'' n'' := by
  obtain ⟨ws, hm, hn⟩ := h.added
  obtain ⟨ws', hm', hn'⟩ := h'.added
  refine ⟨h'.twins, ws ++ ws', ?_, ?_⟩
  · rw [hm', hm, List.append_assoc]
  · rw [hn', hn, List.append_assoc]

section Settings

theorem Blind.comp {f g : Machine → Machine} (hf : Blind f) (hg : Blind g) :
    Blind fun m => g (f m) := by
  intro m path
  change g (f (m.withPath path)) = _
  rw [hf, hg]

theorem Blind.path {f : Machine → Machine} (hf : Blind f) (m : Machine) : (f m).path = m.path := by
  have hsame : f m = (f m).withPath m.path := hf m m.path
  rw [hsame]
  rfl

theorem Blind.inStep {f : Machine → Machine} (hf : Blind f) (h : Twins m n) :
    InStep m n (f m) (f n) := by
  refine ⟨⟨?_, ?_⟩, [], ?_⟩
  · rw [hf.path n, ← hf m n.path, ← h.settings]
  · unfold Machine.position
    rw [hf.path, hf.path]
    exact h.place
  · rw [hf.path, hf.path]
    simp

theorem setUnits_blind (b : Block) : Blind (·.setUnits b) := by
  intro m path
  simp only [setUnits]
  split
  · rfl
  · split <;> rfl

theorem setFeedrate_blind (b : Block) : Blind (·.setFeedrate b) := by
  intro m path
  simp only [setFeedrate]
  split <;> rfl

theorem setSpindleSpeed_blind (b : Block) : Blind (·.setSpindleSpeed b) := by
  intro m path
  simp only [setSpindleSpeed]
  split <;> rfl

theorem setTool_blind (b : Block) : Blind (·.setTool b) := fun _ _ => rfl

theorem setSwitches_blind (b : Block) : Blind (·.setSwitches b) := fun _ _ => rfl

theorem setPlane_blind (b : Block) : Blind (·.setPlane b) := by
  intro m path
  simp only [setPlane]
  split
  · rfl
  · split
    · rfl
    · split <;> rfl

theorem applyState_blind (b : Block) : Blind (·.applyState b) :=
  (setUnits_blind b).comp (setFeedrate_blind b) |>.comp (setSpindleSpeed_blind b)
    |>.comp (setTool_blind b) |>.comp (setSwitches_blind b) |>.comp (setPlane_blind b)

theorem setDistanceMode_blind (b : Block) : Blind (·.setDistanceMode b) := by
  intro m path
  simp only [setDistanceMode]
  split
  · rfl
  · split <;> rfl

theorem setCenterMode_blind (b : Block) : Blind (·.setCenterMode b) := by
  intro m path
  simp only [setCenterMode]
  split
  · rfl
  · split <;> rfl

theorem setMotion_blind (b : Block) : Blind (·.setMotion b) := fun _ _ => rfl

theorem applyModes_blind (b : Block) : Blind (·.applyModes b) :=
  (setDistanceMode_blind b).comp (setCenterMode_blind b) |>.comp (setMotion_blind b)

theorem clearOverride_blind : Blind clearOverride := fun _ _ => rfl

theorem setFrame_blind (b : Block) (m : Machine) (path : Array Waypoint) :
    (m.withPath path).setFrame b =
      ⟨(m.setFrame b).machine.withPath path, (m.setFrame b).fault⟩ := by
  simp only [setFrame, withPath]
  split
  · rfl
  · split <;> rfl

end Settings

section Moves

theorem Twins.eq_withPath (h : Twins m n) : ∃ path, n = m.withPath path := ⟨n.path, h.settings⟩

theorem Twins.modal_eq (h : Twins m n) : n.modal = m.modal := by
  obtain ⟨path, rfl⟩ := h.eq_withPath
  rfl

theorem position_push (m : Machine) (w : Waypoint) :
    ({ m with path := m.path.push w } : Machine).position = w := by
  simp [Machine.position]

theorem Twins.inStep_push (h : Twins m n) (w : Waypoint) :
    InStep m n { m with path := m.path.push w } { n with path := n.path.push w } := by
  refine ⟨⟨?_, ?_⟩, [w], by simp⟩
  · obtain ⟨path, rfl⟩ := h.eq_withPath
    rfl
  · rw [position_push, position_push]

variable {ε : Type} {o p : Outcome ε}

theorem Outcome.InStep.done (h : Machine.InStep m n m' n') :
    Outcome.InStep m n (.done m' : Outcome ε) (.done n') := ⟨rfl, h⟩

theorem Outcome.InStep.stopped (h : Machine.InStep m n m' n') (e : ε) :
    Outcome.InStep m n (.stopped m' e) (.stopped n' e) := ⟨rfl, h⟩

theorem Outcome.InStep.after (h : Machine.InStep m n m' n') (h' : Outcome.InStep m' n' o p) :
    Outcome.InStep m n o p := ⟨h'.fault, h.trans h'.machine⟩

theorem Outcome.InStep.andThen {next next' : Machine → Outcome ε} (h : Outcome.InStep m n o p)
    (hnext : Twins o.machine p.machine →
      Outcome.InStep o.machine p.machine (next o.machine) (next' p.machine)) :
    Outcome.InStep m n (o.andThen next) (p.andThen next') := by
  obtain ⟨k, fault⟩ := o
  obtain ⟨k', fault'⟩ := p
  obtain rfl : fault = fault' := h.fault
  cases fault with
  | none => exact .after h.machine (hnext h.machine.twins)
  | some e => exact .stopped h.machine e

theorem push_inStep (h : Twins m n) (w : Waypoint) :
    Outcome.InStep m n (m.push w) (n.push w) := by
  unfold push
  split
  · exact .stopped (.refl h) _
  · exact .done (h.inStep_push w)

theorem pushEach_inStep (h : Twins m n) (waypoint : Nat → Waypoint) (count i : Nat) :
    Outcome.InStep m n (m.pushEach waypoint count i) (n.pushEach waypoint count i) := by
  induction count generalizing m n i with
  | zero => exact .done (.refl h)
  | succ count ih =>
    unfold pushEach
    exact (push_inStep h _).andThen fun h' => ih h' (i + 1)

theorem dwell_inStep (h : Twins m n) (seconds : Float) :
    InStep m n (m.dwell seconds) (n.dwell seconds) := by
  let w : Waypoint := ⟨{ m.modal with motion := .dwell, dwellTime := seconds }, m.position.point⟩
  have hdwell : n.dwell seconds = { n with path := n.path.push w } := by
    simp only [w, h.place, ← h.modal_eq]
    rfl
  rw [hdwell]
  exact h.inStep_push w

theorem dwellIfAsked_inStep (h : Twins m n) (b : Block) :
    InStep m n (m.dwellIfAsked b) (n.dwellIfAsked b) := by
  unfold dwellIfAsked
  split
  · exact dwell_inStep h _
  · exact .refl h

theorem arc_inStep (h : Twins m n) (finish center : Point) (rotations : Float) :
    Outcome.InStep m n (m.arc finish center rotations) (n.arc finish center rotations) := by
  have harc : n.arcOf finish center rotations = m.arcOf finish center rotations := by
    obtain ⟨path, hn⟩ := h.eq_withPath
    unfold arcOf
    rw [← h.place, hn]
    rfl
  have hcheck : n.checkArc finish center rotations = m.checkArc finish center rotations := by
    unfold checkArc
    rw [harc]
  have hchord : n.chordTo = m.chordTo ∧ n.tolerances = m.tolerances := by
    obtain ⟨path, rfl⟩ := h.eq_withPath
    exact ⟨rfl, rfl⟩
  unfold arc
  rw [hcheck, harc, hchord.1, hchord.2]
  split
  · exact .stopped (.refl h) _
  · exact (pushEach_inStep h _ _ 0).andThen fun h' => push_inStep h' _

theorem target_eq (h : Twins m n) (b : Block) : n.target b = m.target b := by
  obtain ⟨path, hn⟩ := h.eq_withPath
  unfold target
  rw [← h.place, hn]
  rfl

theorem moveTo_inStep (h : Twins m n) (p : Point) :
    Outcome.InStep m n (m.moveTo p) (n.moveTo p) := by
  unfold moveTo
  rw [h.modal_eq]
  exact push_inStep h _

theorem move_inStep (h : Twins m n) (b : Block) :
    Outcome.InStep m n (m.move b) (n.move b) := by
  have hstill := InStep.refl h
  cases hm : m.modal.motion with
  | rapid | linear =>
    simp only [move, h.modal_eq, hm, target_eq h]
    split
    · exact moveTo_inStep h _
    · exact .done hstill
  | clockwise | counterclockwise =>
    simp only [move, h.modal_eq, hm, target_eq h]
    split
    · exact arc_inStep h _ _ _
    · exact .done hstill
  | unset | dwell =>
    simp only [move, h.modal_eq, hm]
    split
    · exact .stopped hstill _
    · exact .done hstill

end Moves

section Blocks

theorem setFrame_inStep (h : Twins m n) (b : Block) :
    Outcome.InStep m n (m.setFrame b) (n.setFrame b) := by
  have hblind : Blind fun m => (m.setFrame b).machine := fun m path =>
    congrArg Outcome.machine (setFrame_blind b m path)
  refine ⟨?_, hblind.inStep h⟩
  rw [h.settings, setFrame_blind]

theorem apply_inStep (h : Twins m n) (b : Block) :
    Outcome.InStep m n (m.apply b) (n.apply b) := by
  unfold apply
  split
  · exact .stopped (.refl h) _
  · have hstate := (applyState_blind b).inStep h
    refine .andThen (.after hstate (setFrame_inStep hstate.twins b)) fun h' => ?_
    -- From here on only the two machines matter, and not how they were set.
    generalize ((m.applyState b).setFrame b).machine = k at h' ⊢
    generalize ((n.applyState b).setFrame b).machine = k' at h' ⊢
    split
    · have hoffset : k'.workOffset b = k.workOffset b := by
        obtain ⟨path, rfl⟩ := h'.eq_withPath
        rfl
      rw [hoffset]
      split
      · exact .stopped (.refl h') _
      · rename_i frames _
        have hframes : Blind fun m => { m with frames } := fun _ _ => rfl
        have hmodes := ((hframes.comp (applyModes_blind b)).inStep h')
        exact .done (hmodes.trans (dwellIfAsked_inStep hmodes.twins b))
    · have hmodes := (applyModes_blind b).inStep h'
      have hdwell := hmodes.trans (dwellIfAsked_inStep hmodes.twins b)
      exact .after hdwell (move_inStep hdwell.twins b)

theorem runBlock_inStep (h : Twins m n) (b : Block) :
    Outcome.InStep m n (m.runBlock b) (n.runBlock b) := by
  unfold runBlock
  split
  · exact .done (.refl h)
  · have happly := apply_inStep h b
    exact ⟨happly.fault, happly.machine.trans (clearOverride_blind.inStep happly.machine.twins)⟩

theorem runFrom_inStep (h : Twins m n) (number : Nat) (bs : List Block) :
    Outcome.InStep m n (m.runFrom number bs) (n.runFrom number bs) := by
  induction bs generalizing m n number with
  | nil => exact .done (.refl h)
  | cons b bs ih =>
    have hblock := runBlock_inStep h b
    unfold runFrom
    generalize m.runBlock b = o at hblock ⊢
    generalize n.runBlock b = p at hblock ⊢
    obtain ⟨k, fault⟩ := o
    obtain ⟨k', fault'⟩ := p
    obtain rfl : fault = fault' := hblock.fault
    -- Both go on, or both stop at this block.
    cases fault with
    | none => exact .after hblock.machine (ih hblock.machine.twins (number + 1))
    | some fault => exact .stopped hblock.machine _

/-- From the same place and with the same settings in force a program has the same end, whatever
came before: it stops at the same fault if at any, leaves the same settings, and has added the same
waypoints to either path. -/
theorem run_forgets_history (h : Twins m n) (bs : List Block) :
    (m.run bs).fault = (n.run bs).fault ∧
      (n.run bs).machine = (m.run bs).machine.withPath (n.run bs).machine.path ∧
      ∃ ws, (m.run bs).machine.path.toList = m.path.toList ++ ws ∧
        (n.run bs).machine.path.toList = n.path.toList ++ ws := by
  have hrun := runFrom_inStep h 1 bs
  exact ⟨hrun.fault, hrun.machine.twins.settings, hrun.machine.added⟩

/-- Has been elsewhere, and came back to the origin with the spindle on. -/
def returned : Machine :=
  let spinning := { Path.Modal.initial with motion := .rapid, spindleOn := true }
  { initial with path := #[.initial, ⟨spinning, ⟨7, 0, 5⟩⟩, ⟨spinning, .origin⟩] }

def relativeBlocks : List Block :=
  [⟨[⟨'G', 91⟩, ⟨'G', 1⟩, ⟨'X', 2⟩], none⟩, ⟨[⟨'G', 4⟩, ⟨'P', 1⟩, ⟨'G', 2⟩, ⟨'X', 0⟩], none⟩]

theorem returned_forgets_history :
    Twins initial returned ∧ (initial.run relativeBlocks).fault.isSome ∧
      (initial.run relativeBlocks).machine.path.size = 3 ∧
      (initial.run relativeBlocks).fault = (returned.run relativeBlocks).fault ∧
      (returned.run relativeBlocks).machine =
        (initial.run relativeBlocks).machine.withPath
          (returned.run relativeBlocks).machine.path ∧
      ∃ ws, (initial.run relativeBlocks).machine.path.toList = initial.path.toList ++ ws ∧
        (returned.run relativeBlocks).machine.path.toList = returned.path.toList ++ ws := by
  have htwins : Twins initial returned := ⟨rfl, rfl⟩
  exact ⟨htwins, by decide +kernel, by decide +kernel, run_forgets_history htwins _⟩

end Blocks

end Toolpath.Machine
