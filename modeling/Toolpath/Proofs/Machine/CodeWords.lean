import Toolpath.Proofs.Machine.Reachable
import Toolpath.Proofs.Machine.Stages
import Toolpath.Proofs.Machine.WordOrder

/-!
# Words and their codes

A word that reads as its code everywhere may be replaced by the code, and no other word may: a
block of that word alone shows the difference.
-/

namespace Toolpath.Machine

open Program (Block Word)
open Program.Block (sameCode)
open Number
open Toolpath.Path (Motion Modal)

variable {letter : Char} {v c k x : Float}

section Agreement

variable {b : Block}

theorem motionOfCode_code (h : Accepts 'G' v c) (hr : ReadsG v c) (current : Motion) :
    motionOfCode current c = motionOfCode current v := by
  obtain ⟨hv, hnear⟩ := h.near
  rcases (ticks_of_codesOf_G c h.code).1 with ⟨k, hk, rfl⟩ | hfour
  · have hvalue := value_eq_of_beq (hr.motion hk) hv h.finite_code
    exact (motionOfCode_congr hv h.lt_two_pow h.finite_code hvalue current).symm
  · have hlow := le_value_of_ticks hfour
    push_cast at hlow
    rw [abs_lt] at hnear
    rw [motionOfCode_of_gt h.finite_code h.self.lt_two_pow (by linarith),
      motionOfCode_of_gt hv h.lt_two_pow (by linarith)]

theorem frameOfCode?_code (h : Accepts 'G' v c) (hr : ReadsG v c) :
    frameOfCode? c = frameOfCode? v := by
  obtain ⟨hv, hnear⟩ := h.near
  rw [frameOfCode?_eq h.finite_code h.self.lt_two_pow, frameOfCode?_eq hv h.lt_two_pow]
  rcases (ticks_of_codesOf_G c h.code).2 with ⟨k, hk, rfl⟩ | hout
  · obtain ⟨hwhole, hlow, hhigh⟩ := ticks_of_frameCodes c hk
    obtain ⟨hcv, hv59⟩ := hr.frame hk
    have hlow := le_value_of_ticks hlow
    have hhigh := value_le_of_ticks hhigh
    have hcv' := value_le_of_le hcv h.finite_code hv
    push_cast at hlow hhigh
    rw [h.floor_eq hwhole, if_pos hcv, if_pos ⟨hlow, hhigh⟩,
      if_pos ⟨hlow.trans hcv', (le_last_iff hv).1 hv59⟩]
  · rw [abs_lt] at hnear
    have hfar : value c ≤ 53 ∨ 60 ≤ value c :=
      hout.imp (fun h => by exact_mod_cast value_le_of_ticks h)
        fun h => by exact_mod_cast le_value_of_ticks h
    rw [if_neg (by grind), if_neg (by grind)]

theorem switch_code (h : Accepts 'M' v c) (hr : ReadsM v c) (modal : Modal) :
    switch modal c = switch modal v := by
  obtain ⟨hv, hnear⟩ := h.near
  obtain ⟨hwhole, ⟨k, hk, rfl⟩ | hidle⟩ := ticks_of_codesOf_M c h.code
  · have hfloor := h.floor_eq hwhole
    rw [if_pos (hr.switch hk)] at hfloor
    exact switch_congr h.finite_code h.self.lt_two_pow hv h.lt_two_pow hfloor.symm modal
  · rw [abs_lt] at hnear
    have hfar : value c ≤ 2 ∨ 11 ≤ value c :=
      hidle.imp (fun h => by exact_mod_cast value_le_of_ticks h)
        fun h => by exact_mod_cast le_value_of_ticks h
    rw [switch_idle h.finite_code h.self.lt_two_pow (by grind),
      switch_idle hv h.lt_two_pow (by grind)]

theorem values_toCodes (b : Block) (letter : Char) :
    (toCodes b).values letter = (b.values letter).map (codeFor letter.toUpper) := by
  have hcode : ∀ w ∈ b.words.filter (·.letter == letter.toUpper),
      (toCode w).value = codeFor letter.toUpper w.value := by
    intro w hw
    rw [← beq_iff_eq.1 (List.mem_filter.1 hw).2]
    rfl
  rw [Block.values, Block.values, toCodes, List.filter_map, List.map_map, List.map_map]
  exact List.map_congr_left hcode

variable (hb : firstUnsupported b = none)
include hb

theorem accepts_word {w : Word} (hw : w ∈ b.words) (hletter : w.letter = 'G' ∨ w.letter = 'M') :
    Accepts w.letter w.value (codeFor w.letter w.value) :=
  accepts_of_supports hletter (firstUnsupported_eq_none.1 hb w hw)

theorem values_accepted (hletter : letter = 'G' ∨ letter = 'M') (hv : v ∈ b.values letter) :
    ⟨letter, v⟩ ∈ b.words ∧ Accepts letter v (codeFor letter v) := by
  have hupper : letter.toUpper = letter := by rcases hletter with rfl | rfl <;> rfl
  have hword : ⟨letter, v⟩ ∈ b.words := by
    rw [Block.mem_words_iff, Block.valuesOf, ← hupper]
    exact hv
  exact ⟨hword, accepts_word hb hword hletter⟩

theorem hasCode_toCodes (hletter : letter = 'G' ∨ letter = 'M') (hk : k ∈ codesOf letter) :
    b.hasCode letter k = (toCodes b).hasCode letter k := by
  have hupper : letter.toUpper = letter := by rcases hletter with rfl | rfl <;> rfl
  have hsame : ∀ v ∈ b.values letter, sameCode (codeFor letter v) k = sameCode v k := fun v hv =>
    (values_accepted hb hletter hv).2.sameCode_eq hk
  rw [Block.hasCode, Block.hasCode, values_toCodes, hupper, Bool.eq_iff_iff, List.any_map]
  simp only [List.any_eq_true, Function.comp_apply]
  exact exists_congr fun v => and_congr_right fun hv => by rw [hsame v hv]

theorem sameAnswers_toCodes (hr : ∀ w ∈ b.words, ReadsTrue w) : SameAnswers b (toCodes b) where
  isEmpty := List.isEmpty_map.symm
  supported _ := by
    rw [firstUnsupported_eq_none]
    intro w hw
    obtain ⟨v, hv, rfl⟩ := List.mem_map.1 hw
    by_cases hletter : v.letter = 'G' ∨ v.letter = 'M'
    · exact (accepts_word hb hv hletter).self.supports
    · rw [not_or] at hletter
      exact (if_neg hletter.1).trans (if_neg hletter.2)
  codesG k hk := hasCode_toCodes hb (.inl rfl) (List.mem_append_left _ hk)
  toolChange := hasCode_toCodes hb (.inr rfl) (by simp [codesOf, settingCodesM])
  value? letter hletter := by
    have hself : codeFor letter.toUpper = id := by
      funext v
      simp only [List.mem_cons, List.not_mem_nil, or_false, not_or] at hletter
      rw [codeFor, codesOf, if_neg hletter.1, if_neg hletter.2]
      rfl
    rw [Block.value?, Block.value?, values_toCodes, hself, List.map_id]
  switches modal := by
    rw [values_toCodes, List.foldl_map]
    refine List.foldl_ext _ _ _ fun modal v hv => ?_
    obtain ⟨hword, haccept⟩ := values_accepted hb (.inr rfl) hv
    exact (switch_code haccept ((hr _ hword).codeM rfl) modal).symm
  frame := by
    rw [values_toCodes, List.findSome?_map, ← List.head?_filterMap, ← List.head?_filterMap]
    refine congrArg List.head? (List.filterMap_congr fun v hv => ?_)
    obtain ⟨hword, haccept⟩ := values_accepted hb (.inl rfl) hv
    exact (frameOfCode?_code haccept ((hr _ hword).codeG rfl)).symm
  motion motion := by
    rw [values_toCodes, List.foldl_map]
    refine List.foldl_ext _ _ _ fun motion v hv => ?_
    obtain ⟨hword, haccept⟩ := values_accepted hb (.inl rfl) hv
    exact (motionOfCode_code haccept ((hr _ hword).codeG rfl) motion).symm

end Agreement

section Alone

/-! A block of one word shows how the word is read. -/

def alone (w : Word) : Block := ⟨[w], none⟩

theorem move_alone {w : Word} (hletter : w.letter = 'G' ∨ w.letter = 'M') (m : Machine) :
    m.move (alone w) = .done m := by
  obtain ⟨letter, v⟩ := w
  unfold move
  rcases hletter with rfl | rfl <;> split <;> rfl

theorem runBlock_alone {w : Word} (hletter : w.letter = 'G' ∨ w.letter = 'M')
    (hs : supports w = true) (hoffset : (alone w).hasCode 'G' 10 = false)
    (hwait : (alone w).hasCode 'G' 4 = false) (m : Machine) :
    m.runBlock (alone w) =
      .done ((m.prepared (alone w)).applyModes (alone w)).clearOverride := by
  have hb : firstUnsupported (alone w) = none := by simp [firstUnsupported, alone, hs]
  have hready : (m.prepared (alone w)).ready (alone w) =
      (m.prepared (alone w)).applyModes (alone w) := by
    simp [ready, dwellIfAsked, hwait]
  rw [runBlock_eq_apply m _ (.inl rfl), apply_eq_move hb hoffset, hready, move_alone hletter]
  rfl

theorem modal_alone (hs : supports ⟨'M', v⟩ = true) (m : Machine) :
    (m.runBlock (alone ⟨'M', v⟩)).machine.modal =
      switch (if sameCode v 6 then { m.modal with tool := m.modal.nextTool } else m.modal) v := by
  rw [runBlock_alone (.inr rfl) hs rfl rfl, prepared_eq]
  simp [alone, applyState, setUnits, setFeedrate, setSpindleSpeed, setTool, setSwitches, setPlane,
    applyModes, setDistanceMode, setCenterMode, setMotion, Block.hasCode, Block.values,
    Block.value?, Outcome.done, clearOverride]

section Selecting

variable (hs : supports ⟨'G', v⟩ = true) (hoffset : sameCode v 10 = false)
  (hwait : sameCode v 4 = false) (m : Machine)
include hs hoffset hwait

theorem runBlock_alone_G : m.runBlock (alone ⟨'G', v⟩) =
    .done ((m.prepared (alone ⟨'G', v⟩)).applyModes (alone ⟨'G', v⟩)).clearOverride := by
  refine runBlock_alone (.inl rfl) hs ?_ ?_ m
  · simpa [alone, Block.hasCode, Block.values] using hoffset
  · simpa [alone, Block.hasCode, Block.values] using hwait

theorem motion_alone :
    (m.runBlock (alone ⟨'G', v⟩)).machine.modal.motion = motionOfCode m.modal.motion v := by
  rw [runBlock_alone_G hs hoffset hwait, applyModes_eq, prepared_eq]
  simp only [Outcome.done, clearOverride, setMotion, (applyState_settles m _).motion]
  simp [alone, Block.values]

theorem selected_alone :
    (m.runBlock (alone ⟨'G', v⟩)).machine.frames.selected.val =
      ((frameOfCode? v).map (· - 1)).getD m.frames.selected.val := by
  have hfind : ((alone ⟨'G', v⟩).values 'G').findSome? frameOfCode? = frameOfCode? v := by
    simp [alone, Block.values]
  rw [runBlock_alone_G hs hoffset hwait, applyModes_eq, prepared_eq]
  simp only [Outcome.done, clearOverride, selection, hfind]
  cases hcode : frameOfCode? v with
  | none => rfl
  | some i =>
    have hindex : i - 1 < 6 := by
      have := number_of_frameOfCode? hcode
      omega
    simp [hindex]

end Selecting

end Alone

section Exactness

def switchesOf (modal : Modal) : Bool × Bool × Bool × Bool :=
  (modal.spindleOn, modal.spindleClockwise, modal.mist, modal.flood)

def spinning : Modal := { Modal.initial with spindleOn := true }

/-- No setting code does the same as the number before it. -/
theorem switch_predecessor : ∀ c ∈ settingCodesM, (c - 1).isFinite = true ∧
    ticks (c - 1) = ticks c - perOne ∧
    switchesOf (switch spinning (c - 1)) ≠ switchesOf (switch spinning c) := by
  decide +kernel

theorem readsM_of_runBlock (h : Accepts 'M' v c)
    (hrun : ∀ m : Machine, m.runBlock (alone ⟨'M', v⟩) = m.runBlock (alone ⟨'M', c⟩)) :
    ReadsM v c where
  switch hc := by
    by_contra hle
    obtain ⟨hfinite, hticks, hdiffers⟩ := switch_predecessor c hc
    have hone : value (c - 1) = value c - 1 := by
      refine mul_right_cancel₀ perOne_pos.ne' ?_
      rw [sub_mul, value_mul_perOne, value_mul_perOne, hticks, one_mul, Int.cast_sub]
    have hbelow : switch spinning v = switch spinning (c - 1) := by
      refine switch_congr h.near.1 h.lt_two_pow hfinite ?_ ?_ spinning
      · linarith [h.self.lt_two_pow]
      · rw [h.floor_eq (ticks_of_codesOf_M c h.code).1, if_neg hle, hone, Nat.floor_sub_one]
    have hmodal := congrArg (·.machine.modal) (hrun { initial with modal := spinning })
    simp only [modal_alone h.supports, modal_alone h.self.supports] at hmodal
    rw [show { spinning with tool := spinning.nextTool } = spinning from rfl, ite_self, ite_self,
      hbelow] at hmodal
    exact hdiffers (congrArg switchesOf hmodal)

theorem selecting_codes : ∀ c ∈ motionCodes ++ frameCodes, perOne ∣ ticks c ∧ c ≠ 10 ∧ c ≠ 4 := by
  decide +kernel

theorem motion_selected : ∀ c ∈ motionCodes, motionOfCode .unset c ≠ .unset := by
  decide +kernel

section ReadsG

theorem Accepts.selects_only (h : Accepts 'G' x c) (hc : c ∈ motionCodes ++ frameCodes) :
    sameCode x 10 = false ∧ sameCode x 4 = false := by
  obtain ⟨-, hten, hfour⟩ := selecting_codes c hc
  exact ⟨h.not_sameCode (List.mem_append_left _ (by simp [settingCodesG])) hten,
    h.not_sameCode (List.mem_append_left _ (by simp [settingCodesG])) hfour⟩

theorem Accepts.motion_alone (h : Accepts 'G' x c) (hc : c ∈ motionCodes) (m : Machine) :
    (m.runBlock (alone ⟨'G', x⟩)).machine.modal.motion = motionOfCode m.modal.motion x := by
  obtain ⟨hoffset, hwait⟩ := h.selects_only (List.mem_append_left _ hc)
  exact Machine.motion_alone h.supports hoffset hwait m

theorem Accepts.selected_alone (h : Accepts 'G' x c) (hc : c ∈ frameCodes) (m : Machine) :
    (m.runBlock (alone ⟨'G', x⟩)).machine.frames.selected.val =
      ((frameOfCode? x).map (· - 1)).getD m.frames.selected.val := by
  obtain ⟨hoffset, hwait⟩ := h.selects_only (List.mem_append_right _ hc)
  exact Machine.selected_alone h.supports hoffset hwait m

variable (h : Accepts 'G' v c)
  (hrun : ∀ m : Machine, m.runBlock (alone ⟨'G', v⟩) = m.runBlock (alone ⟨'G', c⟩))
include h hrun

theorem motion_of_runBlock (hc : c ∈ motionCodes) : (v == c) = true := by
  rw [← value_eq_iff h.near.1 h.finite_code]
  by_contra hvalue
  have hwhole := (selecting_codes c (List.mem_append_left _ hc)).1
  have hmotion := congrArg (·.machine.modal.motion) (hrun initial)
  rw [h.motion_alone hc, h.self.motion_alone hc, motionOfCode,
    if_neg (h.not_isWhole hwhole hvalue)] at hmotion
  exact motion_selected c hc hmotion.symm

theorem frame_of_runBlock (hc : c ∈ frameCodes) : c ≤ v ∧ v ≤ 59 := by
  obtain ⟨hwhole, hlow, hhigh⟩ := ticks_of_frameCodes c hc
  have hcode : frameOfCode? c = some (⌊value c⌋₊ - 53) := by
    rw [frameOfCode?_eq h.finite_code h.self.lt_two_pow]
    exact if_pos ⟨by exact_mod_cast le_value_of_ticks hlow,
      by exact_mod_cast value_le_of_ticks hhigh⟩
  obtain ⟨-, -, hleft, hright⟩ := frame_index h.finite_code h.self.lt_two_pow hcode
  by_contra hnot
  -- A machine with another frame selected shows whether the code is read.
  obtain ⟨s, hs⟩ : ∃ s : Fin 6, s.val ≠ ⌊value c⌋₊ - 54 :=
    ⟨if ⌊value c⌋₊ = 54 then 1 else 0, by split_ifs <;> simp <;> omega⟩
  have hselected := congrArg (·.machine.frames.selected.val)
    (hrun { initial with frames := { Frames.initial with selected := s } })
  dsimp only at hselected
  rw [h.selected_alone hc, h.self.selected_alone hc, hcode] at hselected
  cases hread : frameOfCode? v with
  | none =>
    rw [hread] at hselected
    exact hs hselected
  | some i =>
    obtain ⟨hlast, rfl, hfirst, -⟩ := frame_index h.near.1 h.lt_two_pow hread
    have hbelow : ¬ c ≤ v := fun hcv => hnot ⟨hcv, (le_last_iff h.near.1).2 hlast⟩
    rw [hread, h.floor_eq hwhole, if_neg hbelow] at hselected
    rw [h.floor_eq hwhole, if_neg hbelow] at hfirst
    simp only [Option.map_some, Option.getD_some] at hselected
    omega

end ReadsG

/-- The words of a supported block read as their codes everywhere exactly when every block made of
them runs as the one with the codes in their places. -/
theorem runBlock_toCodes_iff {b : Block} (hb : firstUnsupported b = none) :
    (∀ w ∈ b.words, ReadsTrue w) ↔
      ∀ (m : Machine) (c : Block), c.words ⊆ b.words → m.runBlock c = m.runBlock (toCodes c) := by
  constructor
  · intro hr m c hsub
    have hc : firstUnsupported c = none := by
      rw [firstUnsupported_eq_none] at hb ⊢
      exact fun w hw => hb w (hsub hw)
    exact (sameAnswers_toCodes hc fun w hw => hr w (hsub hw)).runBlock m hc
  · rintro hrun ⟨letter, v⟩ hw
    have halone (m : Machine) := hrun m (alone ⟨letter, v⟩) (by simpa [alone] using hw)
    constructor <;> rintro rfl
    · have haccept := accepts_word hb hw (.inl rfl)
      exact ⟨motion_of_runBlock haccept halone, frame_of_runBlock haccept halone⟩
    · exact readsM_of_runBlock (accepts_word hb hw (.inr rfl)) halone

/-- A block whose codes are a little above, or are found by closeness alone. -/
def aboveBlock : Block :=
  ⟨[⟨'G', 54.0000001⟩, ⟨'M', 3.0000001⟩, ⟨'G', 90.0999999⟩, ⟨'G', 1⟩, ⟨'X', 2⟩], none⟩

theorem aboveBlock_runs_as_codes : firstUnsupported aboveBlock = none ∧
    (toCodes aboveBlock).words.map (·.value) = [54, 3, 90.1, 1, 2] ∧
    ∀ m : Machine, m.runBlock aboveBlock = m.runBlock (toCodes aboveBlock) := by
  have hb : firstUnsupported aboveBlock = none := Option.isNone_iff_eq_none.1 (by decide +kernel)
  have hreads : ∀ w ∈ aboveBlock.words, ReadsTrue w := by decide +kernel
  exact ⟨hb, by decide, fun m =>
    (runBlock_toCodes_iff hb).1 hreads m aboveBlock (List.Subset.refl _)⟩

/-- A word accepted as the code that stops the spindle, and read as the one before, which starts
it. -/
theorem stop_read_as_start : ¬ ∀ (m : Machine) (b : Block), firstUnsupported b = none →
    m.runBlock b = m.runBlock (toCodes b) := by
  intro h
  have hrun := h initial (alone ⟨'M', 4.9999999⟩) (Option.isNone_iff_eq_none.1 (by decide))
  have hspindle := congrArg (·.machine.modal.spindleOn) hrun
  revert hspindle
  decide

end Exactness

end Toolpath.Machine
