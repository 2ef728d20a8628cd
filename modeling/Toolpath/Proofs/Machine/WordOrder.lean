import Mathlib.Data.List.Basic
import Toolpath.Machine.Run

/-!
# The order of words

A machine asks a block for the values of one letter at a time. Blocks that give each letter the same
values do the same, however the words of different letters lie among each other. Only the search for
a word that is not supported goes through all of them in order.
-/

namespace Toolpath

open Program (Block Word)

namespace Program.Block

def valuesOf (b : Block) (letter : Char) : List Float :=
  (b.words.filter (·.letter == letter)).map (·.value)

/-- Every letter has the same values in the same order. -/
def SameValues (b c : Block) : Prop := ∀ letter, b.valuesOf letter = c.valuesOf letter

variable {b c : Block}

theorem wordsOf_eq (b : Block) (letter : Char) :
    b.words.filter (·.letter == letter) = (b.valuesOf letter).map (Word.mk letter) := by
  unfold valuesOf
  have hword : ∀ w ∈ b.words.filter (·.letter == letter), Word.mk letter w.value = w := by
    intro w hw
    obtain ⟨-, hletter⟩ := List.mem_filter.1 hw
    obtain rfl := beq_iff_eq.1 hletter
    rfl
  rw [List.map_map]
  exact ((List.map_congr_left hword).trans (List.map_id _)).symm

theorem mem_words_iff {w : Word} : w ∈ b.words ↔ w.value ∈ b.valuesOf w.letter := by
  unfold valuesOf
  simp only [List.mem_map, List.mem_filter, beq_iff_eq]
  constructor
  · intro h
    exact ⟨w, ⟨h, rfl⟩, rfl⟩
  · rintro ⟨v, ⟨hv, hletter⟩, hvalue⟩
    obtain ⟨letter, value⟩ := v
    cases hletter
    cases hvalue
    exact hv

namespace SameValues

theorem symm (h : SameValues b c) : SameValues c b := fun letter => (h letter).symm

theorem mem_words (h : SameValues b c) {w : Word} : w ∈ b.words ↔ w ∈ c.words := by
  rw [mem_words_iff, mem_words_iff, h]

theorem isEmpty (h : SameValues b c) : b.isEmpty = c.isEmpty := by
  unfold Block.isEmpty
  rw [Bool.eq_iff_iff, List.isEmpty_iff, List.isEmpty_iff]
  simp only [List.eq_nil_iff_forall_not_mem, h.mem_words]

theorem values (h : SameValues b c) (letter : Char) : b.values letter = c.values letter :=
  h letter.toUpper

theorem value? (h : SameValues b c) (letter : Char) : b.value? letter = c.value? letter :=
  congrArg List.head? (h.values letter)

theorem valueD (h : SameValues b c) (letter : Char) (default : Float) :
    b.valueD letter default = c.valueD letter default := by
  unfold Block.valueD
  rw [h.value?]

theorem hasCode (h : SameValues b c) (letter : Char) (code : Float) :
    b.hasCode letter code = c.hasCode letter code := by
  unfold Block.hasCode
  rw [h.values]

end SameValues

end Program.Block

namespace Machine

variable {b c : Block}

def firstUnsupportedOf (b : Block) (letter : Char) : Option Word :=
  (b.words.filter (·.letter == letter)).find? (!supports ·)

section Support

theorem letter_of_unsupported {w : Word} (h : supports w = false) :
    w.letter = 'G' ∨ w.letter = 'M' := by
  unfold supports at h
  split at h
  · exact .inl ‹_›
  · split at h
    · exact .inr ‹_›
    · cases h

theorem supports_of_firstUnsupported {w : Word} (h : firstUnsupported b = some w) :
    supports w = false := by
  simpa using List.find?_some h

theorem firstUnsupported_eq_none : firstUnsupported b = none ↔ ∀ w ∈ b.words, supports w = true := by
  simp [firstUnsupported]

theorem firstUnsupportedOf_of_first {w : Word} (h : firstUnsupported b = some w) :
    firstUnsupportedOf b w.letter = some w := by
  obtain ⟨hw, before, after, hwords, hbefore⟩ := List.find?_eq_some_iff_append.1 h
  refine List.find?_eq_some_iff_append.2
    ⟨hw, before.filter (·.letter == w.letter), after.filter (·.letter == w.letter), ?_, ?_⟩
  · rw [hwords, List.filter_append, List.filter_cons, if_pos (beq_self_eq_true w.letter)]
  · intro v hv
    exact hbefore v (List.mem_of_mem_filter hv)

theorem firstUnsupportedOf_congr (h : b.SameValues c) (letter : Char) :
    firstUnsupportedOf b letter = firstUnsupportedOf c letter := by
  unfold firstUnsupportedOf
  rw [Block.wordsOf_eq, Block.wordsOf_eq, h]

end Support

theorem mem_settingCodesG {code : Float} : code ∈ settingCodesG ↔
    code = 0 ∨ code = 1 ∨ code = 2 ∨ code = 3 ∨ code = 4 ∨ code = 10 ∨ code = 17 ∨ code = 18 ∨
      code = 19 ∨ code = 20 ∨ code = 21 ∨ code = 53 ∨ code = 54 ∨ code = 55 ∨ code = 56 ∨
      code = 57 ∨ code = 58 ∨ code = 59 ∨ code = 90 ∨ code = 90.1 ∨ code = 91 ∨ code = 91.1 := by
  simp [settingCodesG]

/-- The questions that a machine asks a block with supported words have the same answers. -/
structure SameAnswers (b c : Block) : Prop where
  isEmpty : b.isEmpty = c.isEmpty
  supported : firstUnsupported b = none → firstUnsupported c = none
  codesG : ∀ code ∈ settingCodesG, b.hasCode 'G' code = c.hasCode 'G' code
  toolChange : b.hasCode 'M' 6 = c.hasCode 'M' 6
  value? : ∀ letter : Char, letter.toUpper ∉ ['G', 'M'] → b.value? letter = c.value? letter
  switches : ∀ modal, (b.values 'M').foldl switch modal = (c.values 'M').foldl switch modal
  frame : (b.values 'G').findSome? frameOfCode? = (c.values 'G').findSome? frameOfCode?
  motion : ∀ motion,
    (b.values 'G').foldl motionOfCode motion = (c.values 'G').foldl motionOfCode motion

theorem sameAnswers_of_sameValues (h : b.SameValues c) : SameAnswers b c where
  isEmpty := h.isEmpty
  supported hb := by
    rw [firstUnsupported_eq_none] at hb ⊢
    exact fun w hw => hb w (h.mem_words.2 hw)
  codesG code _ := h.hasCode 'G' code
  toolChange := h.hasCode 'M' 6
  value? letter _ := h.value? letter
  switches modal := by rw [h.values]
  frame := by rw [h.values]
  motion motion := by rw [h.values]

/-- The codes that a block is asked for, but for those about where its coordinates count from. -/
def workCodesG : List Float := [4, 10, 17, 18, 19, 20, 21, 90.1, 91.1]

theorem mem_workCodesG {code : Float} : code ∈ workCodesG ↔ code = 4 ∨ code = 10 ∨ code = 17 ∨
    code = 18 ∨ code = 19 ∨ code = 20 ∨ code = 21 ∨ code = 90.1 ∨ code = 91.1 := by
  simp [workCodesG]

/-- The same answers to all questions but those about where the coordinates count from. -/
structure SameWork (b c : Block) : Prop where
  codesG : ∀ code ∈ workCodesG, b.hasCode 'G' code = c.hasCode 'G' code
  toolChange : b.hasCode 'M' 6 = c.hasCode 'M' 6
  value? : ∀ letter : Char, letter.toUpper ∉ ['G', 'M'] → b.value? letter = c.value? letter
  switches : ∀ modal, (b.values 'M').foldl switch modal = (c.values 'M').foldl switch modal
  motion : ∀ motion,
    (b.values 'G').foldl motionOfCode motion = (c.values 'G').foldl motionOfCode motion

namespace SameWork

variable (m : Machine) (h : SameWork b c)
include h

theorem valueD (letter : Char) (hletter : letter.toUpper ∉ ['G', 'M']) (default : Float) :
    b.valueD letter default = c.valueD letter default := by
  unfold Block.valueD
  rw [h.value? letter hletter]

theorem setUnits : m.setUnits b = m.setUnits c := by
  simp [Machine.setUnits, h.codesG, mem_workCodesG]

theorem setFeedrate : m.setFeedrate b = m.setFeedrate c := by
  simp (disch := decide) only [Machine.setFeedrate, h.value?]

theorem setSpindleSpeed : m.setSpindleSpeed b = m.setSpindleSpeed c := by
  simp (disch := decide) only [Machine.setSpindleSpeed, h.value?]

theorem setTool : m.setTool b = m.setTool c := by
  simp (disch := decide) only [Machine.setTool, h.value?, h.toolChange]

theorem setSwitches : m.setSwitches b = m.setSwitches c := by
  simp only [Machine.setSwitches, h.switches]

theorem setPlane : m.setPlane b = m.setPlane c := by
  simp [Machine.setPlane, h.codesG, mem_workCodesG]

theorem applyState : m.applyState b = m.applyState c := by
  unfold Machine.applyState
  rw [h.setUnits, h.setFeedrate, h.setSpindleSpeed, h.setTool, h.setSwitches, h.setPlane]

theorem workOffset : m.workOffset b = m.workOffset c := by
  simp (disch := decide) only [Machine.workOffset, offsetFrame, h.value?, h.valueD]

theorem setCenterMode : m.setCenterMode b = m.setCenterMode c := by
  simp [Machine.setCenterMode, h.codesG, mem_workCodesG]

theorem setMotion : m.setMotion b = m.setMotion c := by
  simp only [Machine.setMotion, h.motion]

theorem dwellIfAsked : m.dwellIfAsked b = m.dwellIfAsked c := by
  simp [Machine.dwellIfAsked, h.valueD, h.codesG, mem_workCodesG]

theorem target : m.target b = m.target c := by
  simp (disch := decide) only [Machine.target, h.value?, h.valueD]

theorem hasAxis : hasAxis b = hasAxis c := by
  simp (disch := decide) only [Machine.hasAxis, List.any_cons, List.any_nil, h.value?]

theorem hasCenter : hasCenter b = hasCenter c := by
  simp (disch := decide) only [Machine.hasCenter, List.any_cons, List.any_nil, h.value?]

theorem move : m.move b = m.move c := by
  unfold Machine.move
  rw [h.hasAxis, h.hasCenter, h.target, h.valueD 'P' (by decide)]

end SameWork

namespace SameAnswers

variable (m : Machine) (h : SameAnswers b c)
include h

theorem work : SameWork b c where
  codesG code hcode := by
    rw [mem_workCodesG] at hcode
    exact h.codesG code (mem_settingCodesG.2 (by grind))
  toolChange := h.toolChange
  value? := h.value?
  switches := h.switches
  motion := h.motion

theorem setFrame : m.setFrame b = m.setFrame c := by
  simp [Machine.setFrame, h.frame, h.codesG, mem_settingCodesG]

theorem setDistanceMode : m.setDistanceMode b = m.setDistanceMode c := by
  simp [Machine.setDistanceMode, h.codesG, mem_settingCodesG]

theorem applyModes : m.applyModes b = m.applyModes c := by
  unfold Machine.applyModes
  rw [h.setDistanceMode, h.work.setCenterMode, h.work.setMotion]

theorem apply (hb : firstUnsupported b = none) : m.apply b = m.apply c := by
  unfold Machine.apply
  simp [hb, h.supported hb, h.codesG, mem_settingCodesG, h.work.applyState, h.setFrame,
    h.work.workOffset, h.applyModes, h.work.dwellIfAsked, h.work.move]

theorem runBlock (hb : firstUnsupported b = none) : m.runBlock b = m.runBlock c := by
  unfold Machine.runBlock
  rw [h.isEmpty, h.apply m hb]

end SameAnswers

variable {m : Machine}

theorem runBlock_of_unsupported {w : Word} (h : firstUnsupported b = some w) (m : Machine) :
    ∃ letter, (letter = 'G' ∨ letter = 'M') ∧ firstUnsupportedOf b letter = some w ∧
      m.runBlock b = .stopped m.clearOverride (.unsupported letter w.value) := by
  have hne : b.isEmpty = false := by
    have hw : w ∈ b.words := List.mem_of_find?_eq_some h
    rw [Block.isEmpty, List.isEmpty_eq_false_iff]
    exact List.ne_nil_of_mem hw
  refine ⟨w.letter, letter_of_unsupported (supports_of_firstUnsupported h),
    firstUnsupportedOf_of_first h, ?_⟩
  unfold runBlock apply
  simp only [hne, h]
  rfl

theorem runBlock_congr (h : b.SameValues c) (hb : firstUnsupported b = none) :
    m.runBlock b = m.runBlock c :=
  (sameAnswers_of_sameValues h).runBlock m hb

/-- Blocks that give every letter the same values leave the same machine behind and end the same
way. Only when they hold both an unsupported G word and an unsupported M word, the one may be
refused for the first such G word and the other for the first such M word. -/
theorem runBlock_of_sameValues (h : b.SameValues c) (m : Machine) :
    (m.runBlock b).machine = (m.runBlock c).machine ∧
      ((m.runBlock b).fault = (m.runBlock c).fault ∨
        ∃ v w, firstUnsupportedOf b 'G' = some v ∧ firstUnsupportedOf b 'M' = some w ∧
          firstUnsupportedOf c 'G' = some v ∧ firstUnsupportedOf c 'M' = some w ∧
          ((m.runBlock b).fault = some (.unsupported 'G' v.value) ∧
              (m.runBlock c).fault = some (.unsupported 'M' w.value) ∨
            (m.runBlock b).fault = some (.unsupported 'M' w.value) ∧
              (m.runBlock c).fault = some (.unsupported 'G' v.value))) := by
  cases hb : firstUnsupported b with
  | none =>
    rw [runBlock_congr h hb]
    exact ⟨rfl, .inl rfl⟩
  | some v =>
    cases hc : firstUnsupported c with
    | none =>
      rw [runBlock_congr h.symm hc]
      exact ⟨rfl, .inl rfl⟩
    | some w =>
      have hsame := firstUnsupportedOf_congr h
      obtain ⟨letter, hletter, hv, hrunb⟩ := runBlock_of_unsupported hb m
      obtain ⟨letter', hletter', hw, hrunc⟩ := runBlock_of_unsupported hc m
      rw [hrunb, hrunc]
      refine ⟨rfl, ?_⟩
      -- Words of one letter keep their order, so only two letters can differ.
      by_cases heq : letter = letter'
      · subst heq
        rw [hsame, hw] at hv
        exact .inl (by rw [Option.some.inj hv])
      · refine .inr ?_
        rcases hletter with rfl | rfl <;> rcases hletter' with rfl | rfl
        · exact absurd rfl heq
        · exact ⟨v, w, hv, (hsame 'M').trans hw, (hsame 'G').symm.trans hv, hw, .inl ⟨rfl, rfl⟩⟩
        · exact ⟨w, v, (hsame 'G').trans hw, hv, hw, (hsame 'M').symm.trans hv, .inr ⟨rfl, rfl⟩⟩
        · exact absurd rfl heq

def moveBlock : Block := ⟨[⟨'G', 91⟩, ⟨'X', 2⟩, ⟨'G', 1⟩, ⟨'F', 100⟩], none⟩

def movedBlock : Block := ⟨[⟨'F', 100⟩, ⟨'G', 91⟩, ⟨'G', 1⟩, ⟨'X', 2⟩], some "feed first".toList⟩

theorem moveBlock_of_sameValues :
    moveBlock.SameValues movedBlock ∧ (initial.runBlock moveBlock).machine.path.size = 2 ∧
      (initial.runBlock moveBlock).machine = (initial.runBlock movedBlock).machine ∧
      (initial.runBlock moveBlock).fault = (initial.runBlock movedBlock).fault := by
  have hvalues : moveBlock.SameValues movedBlock := by
    intro letter
    unfold moveBlock movedBlock Block.valuesOf
    grind
  have hsupported : (firstUnsupportedOf moveBlock 'G').isNone := by decide +kernel
  obtain ⟨hmachine, hfault | ⟨v, w, hv, -⟩⟩ := runBlock_of_sameValues hvalues initial
  · exact ⟨hvalues, by decide +kernel, hmachine, hfault⟩
  · rw [hv] at hsupported
    cases hsupported

end Machine

end Toolpath
