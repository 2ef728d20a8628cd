import Toolpath.Proofs.Machine.Codes

/-!
# The stages of a block

What each group of words changes, as an update of the settings it is about, and the ways in which a
block can end. Selecting a frame never fails, so a supported block is refused only for its offset or
on its move.
-/

namespace Toolpath.Machine

open Toolpath.Geometry (Plane)
open Toolpath.Path (Modal)
open Program (Block Word)
open Number

variable (m : Machine) (b : Block)

section Setters

theorem setUnits_eq : m.setUnits b = { m with
    inches := if b.hasCode 'G' 20 then true else if b.hasCode 'G' 21 then false else m.inches } := by
  unfold setUnits
  split_ifs <;> rfl

theorem setFeedrate_eq : m.setFeedrate b = { m with
    modal.feedrate := ((b.value? 'F').map fun feed =>
      if m.inches then feed * 25.4 else feed).getD m.modal.feedrate } := by
  unfold setFeedrate
  cases b.value? 'F' <;> rfl

theorem setSpindleSpeed_eq : m.setSpindleSpeed b = { m with
    modal.spindleSpeed := b.valueD 'S' m.modal.spindleSpeed } := by
  unfold setSpindleSpeed Block.valueD
  cases b.value? 'S' <;> rfl

theorem setPlane_eq : m.setPlane b = { m with
    plane := if b.hasCode 'G' 17 then .xy else if b.hasCode 'G' 18 then .xz
      else if b.hasCode 'G' 19 then .yz else m.plane } := by
  unfold setPlane
  split_ifs <;> rfl

theorem setDistanceMode_eq : m.setDistanceMode b = { m with
    absoluteMoves := if b.hasCode 'G' 90 then true else if b.hasCode 'G' 91 then false
      else m.absoluteMoves } := by
  unfold setDistanceMode
  split_ifs <;> rfl

theorem setCenterMode_eq : m.setCenterMode b = { m with
    absoluteCenters := if b.hasCode 'G' 90.1 then true else if b.hasCode 'G' 91.1 then false
      else m.absoluteCenters } := by
  unfold setCenterMode
  split_ifs <;> rfl

variable {m} in
theorem applyState_eq_of_same {n : Machine} (hmodal : n.modal = m.modal)
    (hinches : n.inches = m.inches) (hplane : n.plane = m.plane) : n.applyState b = { n with
      modal := (m.applyState b).modal
      inches := (m.applyState b).inches
      plane := (m.applyState b).plane } := by
  simp only [applyState, setUnits_eq, setFeedrate_eq, setSpindleSpeed_eq, setTool, setSwitches,
    setPlane_eq, hmodal, hinches, hplane]

theorem frames_applyState : (m.applyState b).frames = m.frames := by
  rw [applyState_eq_of_same b (rfl : m.modal = m.modal) rfl rfl]

theorem inches_applyState : (m.applyState b).inches = (m.setUnits b).inches := by
  simp only [applyState, setFeedrate_eq, setSpindleSpeed_eq, setTool, setSwitches, setPlane_eq]

theorem applyModes_eq : m.applyModes b = { m with
    modal := (m.setMotion b).modal
    absoluteMoves := (m.setDistanceMode b).absoluteMoves
    absoluteCenters := (m.setCenterMode b).absoluteCenters } := by
  simp only [applyModes, setMotion, setDistanceMode_eq, setCenterMode_eq]

end Setters

section Frames

theorem number_of_frameOfCode? {v : Float} {i : Nat} (h : frameOfCode? v = some i) :
    1 ≤ i ∧ i ≤ 6 := by
  have hrange : 54 ≤ v ∧ v ≤ 59 := by
    unfold frameOfCode? at h
    split_ifs at h with hrange
    exact hrange
  have hfin := isFinite_of_le (by decide) (by decide) hrange.1 hrange.2
  have hlast := (le_last_iff hfin).1 hrange.2
  obtain ⟨-, rfl, hlow, hhigh⟩ := frame_index hfin (by linarith) h
  omega

/-- The frame in force after the frame words of a block. -/
def selection : Fin 6 :=
  ((b.values 'G').findSome? frameOfCode?).elim m.frames.selected fun i =>
    if h : i - 1 < 6 then ⟨i - 1, h⟩ else m.frames.selected

theorem setFrame_eq : m.setFrame b = .done { m with frames := { m.frames with
    selected := m.selection b
    override := m.frames.override || b.hasCode 'G' 53 } } := by
  unfold setFrame selection
  cases hfind : (b.values 'G').findSome? frameOfCode? with
  | none => rfl
  | some i =>
    obtain ⟨v, -, hv⟩ := List.exists_of_findSome?_eq_some hfind
    -- Codes are read as frames only from 54 to 59, and none of these is refused.
    obtain ⟨hlow, hhigh⟩ := number_of_frameOfCode? hv
    have hindex : i - 1 < 6 := by omega
    have hslot : Frames.slot i = .ok ⟨i - 1, hindex⟩ := dif_pos ⟨hlow, hhigh⟩
    simp only [Frames.select, hslot, Except.map, Option.elim_some, dif_pos hindex]

end Frames

/-- With the settings and the frame of a block in force, before its offset and its modes. -/
def prepared : Machine := ((m.applyState b).setFrame b).machine

theorem prepared_eq : m.prepared b = { m.applyState b with frames := { m.frames with
    selected := m.selection b
    override := m.frames.override || b.hasCode 'G' 53 } } := by
  unfold prepared
  rw [setFrame_eq]
  simp only [Outcome.done, selection, frames_applyState]

theorem path_prepared : (m.prepared b).path = m.path := by
  rw [prepared_eq, applyState_eq_of_same b (rfl : m.modal = m.modal) rfl rfl]

/-- With all modes set, and after the dwell if the block asks for one. -/
def ready : Machine := (m.applyModes b).dwellIfAsked b

theorem frames_ready : (m.ready b).frames = m.frames := by
  unfold ready dwellIfAsked
  rw [applyModes_eq]
  split <;> rfl

theorem absoluteMoves_ready :
    (m.ready b).absoluteMoves = (m.setDistanceMode b).absoluteMoves := by
  unfold ready dwellIfAsked
  rw [applyModes_eq]
  split <;> rfl

/-- The ways in which a block can be done or refused. -/
inductive Course : Outcome Fault → Prop where
  | unsupported {w : Word} (h : firstUnsupported b = some w) :
      Course (.stopped m (.unsupported w.letter w.value))
  | badOffset {e : Fault} (hb : firstUnsupported b = none) (hcode : b.hasCode 'G' 10 = true)
      (h : (m.prepared b).workOffset b = .error e) : Course (.stopped (m.prepared b) e)
  | offset {frames : Frames} (hb : firstUnsupported b = none) (hcode : b.hasCode 'G' 10 = true)
      (h : (m.prepared b).workOffset b = .ok frames) :
      Course (.done (({ m.prepared b with frames } : Machine).ready b))
  | move (hb : firstUnsupported b = none) (hcode : b.hasCode 'G' 10 = false) :
      Course (((m.prepared b).ready b).move b)

theorem apply_course : Course m b (m.apply b) := by
  unfold apply
  cases hb : firstUnsupported b with
  | some w => exact .unsupported hb
  | none =>
    have hframe : (m.applyState b).setFrame b = .done (m.prepared b) := by
      unfold prepared
      rw [setFrame_eq]
      rfl
    simp only [hframe]
    cases hcode : b.hasCode 'G' 10 with
    | false => exact .move hb hcode
    | true =>
      cases hoffset : (m.prepared b).workOffset b with
      | error e => simpa [Outcome.andThen, Outcome.done, hoffset] using .badOffset hb hcode hoffset
      | ok frames => simpa [Outcome.andThen, Outcome.done, hoffset] using .offset hb hcode hoffset

theorem apply_of_unsupported {w : Word} (h : firstUnsupported b = some w) :
    m.apply b = .stopped m (.unsupported w.letter w.value) := by
  unfold apply
  rw [h]

variable {m b} in
theorem apply_eq_move (hb : firstUnsupported b = none) (hcode : b.hasCode 'G' 10 = false) :
    m.apply b = ((m.prepared b).ready b).move b := by
  have hcourse := apply_course m b
  generalize m.apply b = o at hcourse ⊢
  cases hcourse with
  | unsupported h => exact absurd (hb.symm.trans h) (Option.some_ne_none _).symm
  | badOffset _ hcode' | offset _ hcode' => exact absurd (hcode.symm.trans hcode') Bool.false_ne_true
  | move => rfl

section Empty

variable {b} (hb : b.isEmpty = true)
include hb

theorem hasCode_of_isEmpty (letter : Char) (code : Float) : b.hasCode letter code = false := by
  simp [Block.hasCode, Block.values, List.isEmpty_iff.1 hb]

theorem apply_of_isEmpty : m.apply b = .done m := by
  obtain ⟨words, comment⟩ := b
  obtain rfl : words = [] := List.isEmpty_iff.1 hb
  have hframe : m.setFrame ⟨[], comment⟩ = .done m := by
    rw [setFrame_eq]
    simp [selection, Block.hasCode, Block.values]
  have hmove : m.move ⟨[], comment⟩ = .done m := by
    unfold move
    cases m.modal.motion <;> rfl
  change ((m.setFrame ⟨[], comment⟩).andThen fun m => m.move ⟨[], comment⟩) = _
  rw [hframe]
  exact hmove

end Empty

/-- A block does what its words do, also when it has none. Then alone an override would stay. -/
theorem runBlock_eq_apply (h : b.isEmpty = false ∨ m.frames.override = false) :
    m.runBlock b = ⟨(m.apply b).machine.clearOverride, (m.apply b).fault⟩ := by
  unfold runBlock
  split
  · rename_i hb
    have ho : m.frames.override = false := h.resolve_left fun hb' => by simp [hb'] at hb
    rw [apply_of_isEmpty m hb, Outcome.done, clearOverride, ← ho]
  · rfl

end Toolpath.Machine
