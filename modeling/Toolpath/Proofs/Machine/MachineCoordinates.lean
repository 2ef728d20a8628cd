import Toolpath.Proofs.Machine.Additions
import Toolpath.Proofs.Machine.WordOrder

/-!
# Machine coordinates

`G53` puts the machine's own coordinates in force for one block. The block then does what it would
do without any word that says where coordinates count from, on a machine with all offsets zero and
with absolute moves. Its frame and distance words hold from the next block on.
-/

namespace Toolpath.Machine

open Toolpath.Geometry (Point)
open Toolpath.Path (Waypoint)
open Program (Block Word)
open Number

/-- The codes that say where coordinates count from. -/
def placingCodes : List Float := [53, 54, 55, 56, 57, 58, 59, 90, 91]

def placing (w : Word) : Bool := w.letter == 'G' && placingCodes.any (Block.sameCode w.value)

/-- The block without the words that say where coordinates count from. -/
def unplaced (b : Block) : Block := { b with words := b.words.filter (!placing ·) }

def unshifted (m : Machine) : Machine :=
  { m with
    frames := { m.frames with offsets := Vector.replicate 6 .origin }
    absoluteMoves := true }

/-- The same machine with other frames and another distance mode. -/
def withCoordinates (m : Machine) (frames : Frames) (absoluteMoves : Bool) : Machine :=
  { m with frames, absoluteMoves }

theorem frames_withCoordinates (m : Machine) (frames : Frames) (absolute : Bool) :
    (m.withCoordinates frames absolute).frames = frames := rfl

theorem absoluteMoves_withCoordinates (m : Machine) (frames : Frames) (absolute : Bool) :
    (m.withCoordinates frames absolute).absoluteMoves = absolute := rfl

section Words

variable {b : Block} {letter : Char} {v k : Float}

def placed (v : Float) : Bool := placingCodes.any (Block.sameCode v)

theorem placingCodes_supported : ∀ k ∈ placingCodes,
    (∃ c ∈ codesOf 'G', k = c) ∧ 4 * perOne ≤ ticks k := by
  decide +kernel

theorem workCodes_apart : ∀ c ∈ workCodesG,
    (∃ k ∈ codesOf 'G', c = k) ∧ ∀ k ∈ placingCodes, c ≠ k := by
  decide +kernel

theorem exists_accepts_of_placed (h : placed v = true) :
    ∃ k ∈ placingCodes, Accepts 'G' v k := by
  obtain ⟨k, hk, hsame⟩ := List.any_eq_true.1 h
  obtain ⟨c, hc, rfl⟩ := (placingCodes_supported k hk).1
  exact ⟨k, hk, .inl rfl, hc, hsame⟩

theorem not_placed_of_sameCode {c : Float} (hc : c ∈ workCodesG)
    (hsame : Block.sameCode v c = true) : placed v = false := by
  obtain ⟨⟨j, hj, rfl⟩, hapart⟩ := workCodes_apart c hc
  refine Bool.eq_false_iff.2 fun hplaced => ?_
  obtain ⟨k, hk, haccept⟩ := exists_accepts_of_placed hplaced
  exact hapart k hk ((haccept.sameCode_iff hj).1 hsame).symm

theorem motionOfCode_of_placed (h : placed v = true) (motion : Path.Motion) :
    motionOfCode motion v = motion := by
  obtain ⟨k, hk, haccept⟩ := exists_accepts_of_placed h
  obtain ⟨hv, hnear⟩ := haccept.near
  have hlarge := le_value_of_ticks (placingCodes_supported k hk).2
  push_cast at hlarge
  rw [abs_lt] at hnear
  exact motionOfCode_of_gt hv haccept.lt_two_pow (by linarith) motion

theorem values_unplaced_of_G (b : Block) :
    (unplaced b).values 'G' = (b.values 'G').filter (!placed ·) := by
  unfold Block.values unplaced
  rw [List.filter_map, List.filter_filter, List.filter_filter]
  refine congrArg _ (List.filter_congr fun w _ => ?_)
  have hupper : 'G'.toUpper = 'G' := rfl
  rw [hupper]
  cases hletter : w.letter == 'G' <;> simp [placing, placed, hletter]

theorem values_unplaced_of_ne (h : letter.toUpper ≠ 'G') (b : Block) :
    (unplaced b).values letter = b.values letter := by
  unfold Block.values unplaced
  rw [List.filter_filter]
  refine congrArg _ (List.filter_congr fun w _ => ?_)
  cases hletter : w.letter == letter.toUpper with
  | false => rfl
  | true =>
    have hother : (w.letter == 'G') = false := by
      rw [beq_iff_eq.1 hletter]
      exact beq_false_of_ne h
    simp [placing, hother]

theorem hasCode_unplaced (hk : k ∈ placingCodes) (b : Block) :
    (unplaced b).hasCode 'G' k = false := by
  unfold Block.hasCode
  rw [values_unplaced_of_G, Bool.eq_false_iff]
  intro hany
  obtain ⟨v, hv, hsame⟩ := List.any_eq_true.1 hany
  have hkept := (List.mem_filter.1 hv).2
  have hplaced : placed v = true := List.any_eq_true.2 ⟨k, hk, hsame⟩
  rw [hplaced] at hkept
  cases hkept

theorem sameWork_unplaced (b : Block) : SameWork b (unplaced b) where
  codesG c hc := by
    unfold Block.hasCode
    rw [values_unplaced_of_G, List.any_filter]
    refine List.any_congr rfl fun v => ?_
    cases hsame : Block.sameCode v c with
    | false => simp
    | true => simp [not_placed_of_sameCode hc hsame]
  toolChange := by
    unfold Block.hasCode
    rw [values_unplaced_of_ne (by decide)]
  value? letter hletter := by
    unfold Block.value?
    rw [values_unplaced_of_ne (by grind)]
  switches modal := by rw [values_unplaced_of_ne (by decide)]
  motion motion := by
    rw [values_unplaced_of_G, List.foldl_filter]
    refine List.foldl_ext _ _ _ fun motion v _ => ?_
    cases hplaced : placed v with
    | false => rfl
    | true => exact motionOfCode_of_placed hplaced motion

theorem firstUnsupported_unplaced (b : Block) :
    firstUnsupported (unplaced b) = firstUnsupported b := by
  unfold firstUnsupported unplaced
  rw [List.find?_filter]
  refine List.find?_congr fun w _ => ?_
  cases hplacing : placing w with
  | false => simp
  | true =>
    obtain ⟨letter, v⟩ := w
    obtain ⟨hletter, hplaced⟩ := Bool.and_eq_true_iff.1 hplacing
    obtain rfl := beq_iff_eq.1 hletter
    obtain ⟨k, -, haccept⟩ := exists_accepts_of_placed hplaced
    simp [haccept.supports]

end Words

section Work

variable {m : Machine} {b c : Block} {frames : Frames}

theorem push_withCoordinates (m : Machine) (frames : Frames) (absolute : Bool) (w : Waypoint) :
    (m.withCoordinates frames absolute).push w =
      ⟨(m.push w).machine.withCoordinates frames absolute, (m.push w).fault⟩ := by
  unfold push
  split <;> rfl

theorem arc_withCoordinates (m : Machine) (frames : Frames) (absolute : Bool)
    (finish center : Point) (rotations : Float) :
    (m.withCoordinates frames absolute).arc finish center rotations =
      ⟨(m.arc finish center rotations).machine.withCoordinates frames absolute,
        (m.arc finish center rotations).fault⟩ := by
  have hcheck : (m.withCoordinates frames absolute).checkArc finish center rotations =
      m.checkArc finish center rotations := rfl
  cases h : m.checkArc finish center rotations with
  | error e =>
    rw [arc_of_refused h, arc_of_refused (hcheck.trans h)]
    rfl
  | ok u =>
    rw [arc_of_checked h, arc_of_checked (hcheck.trans h)]
    rfl

/-- Where no word says where coordinates count from, the modes of a block keep what is given. -/
theorem ready_withCoordinates (hwork : SameWork b c) (h90 : c.hasCode 'G' 90 = false)
    (h91 : c.hasCode 'G' 91 = false) (m : Machine) (frames : Frames) :
    (m.withCoordinates frames true).ready c = (m.ready b).withCoordinates frames true := by
  have hdistance : ((m.withCoordinates frames true).setDistanceMode c).absoluteMoves = true := by
    rw [setDistanceMode_eq, h90, h91]
    rfl
  unfold ready
  rw [← hwork.dwellIfAsked, applyModes_eq, applyModes_eq, hdistance, ← hwork.setMotion,
    ← hwork.setCenterMode, setCenterMode_eq, setCenterMode_eq]
  unfold dwellIfAsked
  split <;> rfl

section Override

variable (ho : m.frames.override = true) (hoffset : frames.offset = .origin)
include ho hoffset

theorem target_withCoordinates (b : Block) :
    (m.withCoordinates frames true).target b = m.target b := by
  have horigin : m.frames.offset = .origin := if_pos ho
  unfold target
  simp only [withCoordinates, hoffset, horigin, ho, Bool.true_or, Bool.or_true]
  rfl

theorem move_withCoordinates (hwork : SameWork b c) : (m.withCoordinates frames true).move c =
    ⟨(m.move b).machine.withCoordinates frames true, (m.move b).fault⟩ := by
  rw [← hwork.move]
  have htarget := target_withCoordinates ho hoffset b
  have hmodal : (m.withCoordinates frames true).modal = m.modal := rfl
  cases hm : m.modal.motion with
  | rapid | linear =>
    simp only [move, hmodal, hm, htarget]
    split
    · exact push_withCoordinates m frames true _
    · rfl
  | clockwise | counterclockwise =>
    simp only [move, hmodal, hm, htarget]
    split
    · exact arc_withCoordinates m frames true _ _ _
    · rfl
  | unset | dwell =>
    simp only [move, hmodal, hm]
    split <;> rfl

end Override

end Work

section Blocks

variable {m : Machine} {b : Block}

theorem prepared_unshifted (m : Machine) (b : Block) :
    m.unshifted.prepared (unplaced b) = (m.prepared b).withCoordinates
      { m.unshifted.frames with selected := m.unshifted.selection (unplaced b) } true := by
  have h53 := hasCode_unplaced (k := 53) (by simp [placingCodes]) b
  rw [prepared_eq, prepared_eq, ← (sameWork_unplaced b).applyState, h53, Bool.or_false,
    applyState_eq_of_same b (m := m) (n := m.unshifted) rfl rfl rfl,
    applyState_eq_of_same b (m := m) (n := m) rfl rfl rfl]
  rfl

theorem absoluteMoves_prepared (m : Machine) (b : Block) :
    (m.prepared b).absoluteMoves = m.absoluteMoves := by
  rw [prepared_eq, applyState_eq_of_same b (rfl : m.modal = m.modal) rfl rfl]

variable (ho : m.frames.override = false) (h53 : b.hasCode 'G' 53 = true)
  (h10 : b.hasCode 'G' 10 = false) (hb : firstUnsupported b = none)
include h53 h10 hb

theorem apply_eq_withCoordinates : (m.apply b).machine = (m.apply b).machine.withCoordinates
    { m.frames with selected := m.selection b, override := true }
    (m.setDistanceMode b).absoluteMoves := by
  obtain ⟨path, hmove⟩ := exists_move_eq_withPath ((m.prepared b).ready b) b
  rw [apply_eq_move hb h10, hmove]
  have hframes : ((m.prepared b).ready b).frames =
      { m.frames with selected := m.selection b, override := true } := by
    rw [frames_ready, prepared_eq, h53, Bool.or_true]
  have habsolute : ((m.prepared b).ready b).absoluteMoves =
      (m.setDistanceMode b).absoluteMoves := by
    rw [absoluteMoves_ready, setDistanceMode_eq, setDistanceMode_eq, absoluteMoves_prepared]
  rw [← hframes, ← habsolute]
  rfl

include ho

theorem apply_unshifted : ∃ frames, m.unshifted.apply (unplaced b) =
    ⟨(m.apply b).machine.withCoordinates frames true, (m.apply b).fault⟩ := by
  have hwork := sameWork_unplaced b
  have hb' := (firstUnsupported_unplaced b).trans hb
  have h10' := (hwork.codesG 10 (by simp [workCodesG])).symm.trans h10
  have hoverride : ((m.prepared b).ready b).frames.override = true := by
    rw [frames_ready, prepared_eq, h53]
    exact Bool.or_true _
  refine ⟨{ m.unshifted.frames with selected := m.unshifted.selection (unplaced b) }, ?_⟩
  rw [apply_eq_move hb h10, apply_eq_move hb' h10', prepared_unshifted,
    ready_withCoordinates hwork (hasCode_unplaced (by simp [placingCodes]) b)
      (hasCode_unplaced (by simp [placingCodes]) b)]
  refine move_withCoordinates hoverride ?_ hwork
  simp [Frames.offset, unshifted, ho]

end Blocks

/-- The frames after a block under the override: the offsets as before, and the frame that the words
of the block select, unless the block is refused for a word. -/
def framesAfter (m : Machine) (b : Block) : Frames where
  offsets := m.frames.offsets
  selected := if (firstUnsupported b).isSome then m.frames.selected else m.selection b
  override := false

/-- The distance mode after a block: as its words say, unless it is refused for a word. -/
def absoluteMovesAfter (m : Machine) (b : Block) : Bool :=
  if (firstUnsupported b).isSome then m.absoluteMoves else (m.setDistanceMode b).absoluteMoves

/-- Under the override a block ends as it would without its words for frames and distance modes, on
the machine with zero offsets and absolute moves. It adds the same waypoints and leaves the same
settings, but for its own frames and distance mode: no offset has changed, and the override is
off. -/
theorem runBlock_in_machine_coordinates {m : Machine} {b : Block}
    (ho : m.frames.override = false) (h53 : b.hasCode 'G' 53 = true)
    (h10 : b.hasCode 'G' 10 = false) :
    (m.runBlock b).fault = (m.unshifted.runBlock (unplaced b)).fault ∧
      (∃ ws, (m.runBlock b).machine.path.toList = m.path.toList ++ ws ∧
        (m.unshifted.runBlock (unplaced b)).machine.path.toList = m.path.toList ++ ws) ∧
      (m.runBlock b).machine = (m.unshifted.runBlock (unplaced b)).machine.withCoordinates
        (m.framesAfter b) (m.absoluteMovesAfter b) := by
  have hwords : b.isEmpty = false := by
    rw [Bool.eq_false_iff]
    intro hempty
    rw [hasCode_of_isEmpty hempty] at h53
    cases h53
  obtain ⟨dwells, moves, hadds⟩ := apply_adds m b
  have hpath := hadds.path
  rw [List.append_assoc] at hpath
  rw [runBlock_eq_apply m b (.inl hwords), runBlock_eq_apply m.unshifted (unplaced b) (.inr ho)]
  cases hb : firstUnsupported b with
  | some w =>
    -- The word that is refused is in both blocks, and nothing has been done before it.
    have hb' := (firstUnsupported_unplaced b).trans hb
    rw [apply_of_unsupported m b hb] at hpath ⊢
    rw [apply_of_unsupported m.unshifted (unplaced b) hb', framesAfter, absoluteMovesAfter, hb]
    exact ⟨rfl, ⟨_, hpath, hpath⟩, rfl⟩
  | none =>
    obtain ⟨frames, happly⟩ := apply_unshifted ho h53 h10 hb
    rw [happly, framesAfter, absoluteMovesAfter, hb]
    refine ⟨rfl, ⟨_, hpath, hpath⟩, ?_⟩
    dsimp only
    rw [apply_eq_withCoordinates h53 h10 hb]
    rfl

def shifted : Machine :=
  { initial with
    frames := { Frames.initial with offsets := Vector.replicate 6 ⟨3, 4, 5⟩ }
    absoluteMoves := false
    path := #[⟨Path.Modal.initial, ⟨7, 8, 0⟩⟩] }

def excursion : Block :=
  ⟨[⟨'G', 53⟩, ⟨'G', 90⟩, ⟨'G', 55⟩, ⟨'G', 1⟩, ⟨'X', 2⟩, ⟨'Y', -1⟩], none⟩

theorem shifted_excursion : shifted.frames.override = false ∧
    excursion.hasCode 'G' 53 = true ∧ excursion.hasCode 'G' 10 = false ∧
    (unplaced excursion).words.map (·.value) = [1, 2, -1] ∧
    (shifted.runBlock excursion).fault = none ∧
    (∃ w, (shifted.runBlock excursion).machine.path.toList = shifted.path.toList ++ [w] ∧
      w.point.x = 2 ∧ w.point.y = -1) ∧
    (shifted.runBlock excursion).machine.frames.offsets = shifted.frames.offsets ∧
    (shifted.runBlock excursion).machine.frames.selected = 1 ∧
    (shifted.runBlock excursion).machine.absoluteMoves = true := by
  have ho : shifted.frames.override = false := rfl
  have h53 : excursion.hasCode 'G' 53 = true := by decide +kernel
  have h10 : excursion.hasCode 'G' 10 = false := by decide +kernel
  obtain ⟨hfault, ⟨ws, hpath, hpath'⟩, hmachine⟩ := runBlock_in_machine_coordinates ho h53 h10
  have hselected : (shifted.framesAfter excursion).selected = 1 := by decide +kernel
  have hmoves : shifted.absoluteMovesAfter excursion = true := by decide +kernel
  have hplain : (shifted.unshifted.runBlock (unplaced excursion)).fault.isNone = true ∧
      (shifted.unshifted.runBlock (unplaced excursion)).machine.path.toList.map (·.point.x) =
        [7, 2] ∧
      (shifted.unshifted.runBlock (unplaced excursion)).machine.path.toList.map (·.point.y) =
        [8, -1] := by
    decide +kernel
  obtain ⟨hnone, hx, hy⟩ := hplain
  rw [hpath'] at hx hy
  have hlength : ws.length = 1 := by simpa [shifted] using congrArg List.length hx
  obtain ⟨w, rfl⟩ := List.length_eq_one_iff.1 hlength
  refine ⟨ho, h53, h10, by decide +kernel, hfault.trans (Option.isNone_iff_eq_none.1 hnone),
    ⟨w, hpath, ?_, ?_⟩, ?_, ?_, ?_⟩
  · simpa [shifted] using hx
  · simpa [shifted] using hy
  · rw [hmachine, frames_withCoordinates, framesAfter]
  · rw [hmachine, frames_withCoordinates, hselected]
  · rw [hmachine, absoluteMoves_withCoordinates, hmoves]

end Toolpath.Machine
