import Mathlib.Data.List.Forall2
import Toolpath.Program.Listing

/-!
# Lines of a listing

A line of a text is found by counting line feeds. Reading splits at them, so that a listing that
ends its last line can be read apart from what follows it, and the number of a bad word is that of
its line.
-/

namespace Toolpath.Program

/-- Nothing is left after the last line feed. -/
def EndsLine (text : List Char) : Prop := text = [] ∨ text.getLast? = some '\n'

/-- A line and its number, counted from one. What comes after the last line feed is a line only if
it holds anything. -/
inductive LineAt : List Char → Nat → List Char → Prop
  | ended {before written : List Char} (after : List Char) (start : EndsLine before)
      (within : '\n' ∉ written) :
      LineAt (before ++ (written ++ '\n' :: after)) (before.count '\n' + 1) (endLine written)
  | unended {before written : List Char} (start : EndsLine before) (within : '\n' ∉ written)
      (nonempty : written ≠ []) :
      LineAt (before ++ written) (before.count '\n' + 1) written

section Splitting

variable {text before written : List Char}

@[simp] theorem lines_nil : lines [] = [] := rfl

theorem linesFrom_eq (done : List (List Char)) (line cs : List Char) :
    linesFrom done line cs = done.reverse ++ linesFrom [] line cs := by
  induction cs generalizing done line with
  | nil =>
    simp only [linesFrom]
    split <;> simp
  | cons c cs ih =>
    by_cases hc : c = '\n'
    · subst hc
      rw [linesFrom, linesFrom, ih, ih [_]]
      simp
    · rw [linesFrom.eq_3 _ _ _ _ hc, linesFrom.eq_3 _ _ _ _ hc, ih]

theorem linesFrom_ended {line : List Char} (h : '\n' ∉ written) (after : List Char) :
    linesFrom [] line (written ++ '\n' :: after) =
      endLine (line.reverse ++ written) :: lines after := by
  induction written generalizing line with
  | nil =>
    rw [List.nil_append, linesFrom, linesFrom_eq]
    simp [lines]
  | cons c written ih =>
    obtain ⟨hc, hwritten⟩ := List.ne_and_not_mem_of_not_mem_cons h
    rw [List.cons_append, linesFrom.eq_3 _ _ _ _ (Ne.symm hc), ih hwritten]
    simp

theorem linesFrom_unended {line : List Char} (h : '\n' ∉ written) :
    linesFrom [] line written =
      if line.reverse ++ written = [] then [] else [line.reverse ++ written] := by
  induction written generalizing line with
  | nil => cases line <;> simp [linesFrom]
  | cons c written ih =>
    obtain ⟨hc, hwritten⟩ := List.ne_and_not_mem_of_not_mem_cons h
    rw [linesFrom.eq_3 _ _ _ _ (Ne.symm hc), ih hwritten]
    simp

theorem lines_ended (h : '\n' ∉ written) (after : List Char) :
    lines (written ++ '\n' :: after) = endLine written :: lines after :=
  linesFrom_ended h after

theorem lines_unended (h : '\n' ∉ written) (hne : written ≠ []) : lines written = [written] := by
  unfold lines
  rw [linesFrom_unended h, List.reverse_nil, List.nil_append, if_neg hne]

/-- A text is read line by line: it is empty, or one line without a line feed, or its first line
ends in one. -/
theorem line_induction {P : List Char → Prop} (empty : P [])
    (unended : ∀ written, '\n' ∉ written → written ≠ [] → P written)
    (ended : ∀ written after, '\n' ∉ written → P after → P (written ++ '\n' :: after))
    (text : List Char) : P text := by
  -- On the length: what is left after a line is not the tail of the text.
  induction hlength : text.length using Nat.strongRecOn generalizing text with
  | ind length ih =>
    by_cases hfeed : '\n' ∈ text
    · obtain ⟨written, after, rfl, hwritten⟩ := List.eq_append_cons_of_mem hfeed
      refine ended written after hwritten (ih after.length ?_ after rfl)
      simp only [List.length_append, List.length_cons] at hlength
      omega
    · rcases eq_or_ne text [] with rfl | hne
      · exact empty
      · exact unended text hfeed hne

theorem EndsLine.after (h : EndsLine (written ++ '\n' :: text)) : EndsLine text := by
  rcases List.eq_nil_or_concat text with rfl | ⟨front, c, rfl⟩
  · exact .inl rfl
  · rcases h with h | h
    · simp at h
    · rw [List.concat_eq_append, ← List.cons_append, ← List.append_assoc,
        List.getLast?_concat] at h
      exact .inr (by rw [List.concat_eq_append, List.getLast?_concat, h])

theorem EndsLine.eq_nil_of_not_mem (h : EndsLine text) (hfeed : '\n' ∉ text) : text = [] :=
  h.resolve_right fun hlast => hfeed (List.mem_of_getLast? hlast)

theorem EndsLine.ended (h : EndsLine text) (written : List Char) :
    EndsLine (written ++ '\n' :: text) := by
  rcases h with rfl | h
  · exact .inr List.getLast?_concat
  · refine .inr ?_
    rw [List.getLast?_append, List.getLast?_cons, h]
    rfl

theorem lines_append (h : EndsLine before) (text : List Char) :
    lines (before ++ text) = lines before ++ lines text := by
  induction before using line_induction with
  | empty => simp
  | unended written hwritten hne => exact absurd (h.eq_nil_of_not_mem hwritten) hne
  | ended written after hwritten ih =>
    rw [List.append_assoc, List.cons_append, lines_ended hwritten, lines_ended hwritten,
      ih h.after, List.cons_append]

theorem length_lines (h : EndsLine text) : (lines text).length = text.count '\n' := by
  induction text using line_induction with
  | empty => rfl
  | unended written hwritten hne => exact absurd (h.eq_nil_of_not_mem hwritten) hne
  | ended written after hwritten ih =>
    rw [lines_ended hwritten, List.length_cons, ih h.after, List.count_append,
      List.count_eq_zero.2 hwritten, List.count_cons_self, Nat.zero_add]

theorem LineAt.after_line {number : Nat} {line : List Char} (h : LineAt text number line)
    (hwritten : '\n' ∉ written) : LineAt (written ++ '\n' :: text) (number + 1) line := by
  have hcount : ∀ before : List Char,
      (written ++ '\n' :: before).count '\n' = before.count '\n' + 1 := by
    intro before
    rw [List.count_append, List.count_eq_zero.2 hwritten, List.count_cons_self, Nat.zero_add]
  cases h with
  | @ended before here after hstart hhere =>
    have hline := LineAt.ended after (hstart.ended written) hhere
    rwa [hcount, List.append_assoc, List.cons_append] at hline
  | @unended before here hstart hhere hne =>
    have hline := LineAt.unended (hstart.ended written) hhere hne
    rwa [hcount, List.append_assoc, List.cons_append] at hline

theorem lineAt_iff {number : Nat} {line : List Char} :
    LineAt text (number + 1) line ↔ (lines text)[number]? = some line := by
  constructor
  · intro h
    cases h with
    | @ended before written after hstart hwritten =>
      rw [lines_append hstart, lines_ended hwritten, ← length_lines hstart]
      simp
    | @unended before _ hstart hwritten hne =>
      rw [lines_append hstart, lines_unended hwritten hne, ← length_lines hstart]
      simp
  · intro h
    -- Each line taken off the front lowers the number by one.
    induction text using line_induction generalizing number with
    | empty => simp at h
    | unended written hwritten hne =>
      rw [lines_unended hwritten hne, List.getElem?_singleton] at h
      split at h
      · obtain rfl := Option.some.inj h
        subst number
        exact @LineAt.unended [] written (.inl rfl) hwritten hne
      · cases h
    | ended written after hwritten ih =>
      rw [lines_ended hwritten] at h
      cases number with
      | zero =>
        obtain rfl := Option.some.inj h
        exact @LineAt.ended [] written after (.inl rfl) hwritten
      | succ number => exact (ih h).after_line hwritten

end Splitting

def LineError.raise (e : LineError) (count : Nat) : LineError := { e with line := e.line + count }

section Reading

variable {number : Nat} {ls : List (List Char)} {bs : List Block}

theorem blocksFrom_nil (number : Nat) : blocksFrom number [] = .ok [] := rfl

theorem blocksFrom_cons_of_ok {l : List Char} {b : Block} (h : Block.ofLine l = .ok b)
    (number : Nat) (ls : List (List Char)) :
    blocksFrom number (l :: ls) = (blocksFrom (number + 1) ls).map (b :: ·) := by
  cases hrest : blocksFrom (number + 1) ls
  all_goals
    unfold blocksFrom at hrest ⊢
    simp only [List.zipIdx_cons, List.mapM_cons, h, hrest]
    rfl

theorem blocksFrom_cons_of_error {l : List Char} {e : WordError} (h : Block.ofLine l = .error e)
    (number : Nat) (ls : List (List Char)) :
    blocksFrom number (l :: ls) = .error ⟨number, e⟩ := by
  unfold blocksFrom
  simp only [List.zipIdx_cons, List.mapM_cons, h]
  rfl

theorem blocksFrom_raise (number count : Nat) (ls : List (List Char)) :
    blocksFrom (number + count) ls = (blocksFrom number ls).mapError (·.raise count) := by
  induction ls generalizing number with
  | nil => rfl
  | cons l ls ih =>
    cases hl : Block.ofLine l with
    | error e =>
      rw [blocksFrom_cons_of_error hl, blocksFrom_cons_of_error hl]
      rfl
    | ok b =>
      rw [blocksFrom_cons_of_ok hl, blocksFrom_cons_of_ok hl, Nat.add_right_comm, ih]
      cases blocksFrom (number + 1) ls <;> rfl

theorem blocksFrom_eq_ok_iff :
    blocksFrom number ls = .ok bs ↔ List.Forall₂ (fun l b => Block.ofLine l = .ok b) ls bs := by
  induction ls generalizing number bs with
  | nil => simp [blocksFrom_nil, eq_comm]
  | cons l ls ih =>
    cases hl : Block.ofLine l with
    | error e => simp [blocksFrom_cons_of_error hl, List.forall₂_cons_left_iff, hl]
    | ok b =>
      rw [blocksFrom_cons_of_ok hl, List.forall₂_cons_left_iff]
      constructor
      · intro h
        cases hrest : blocksFrom (number + 1) ls with
        | error e => simp [hrest, Except.map] at h
        | ok cs =>
          rw [hrest] at h
          exact ⟨b, cs, hl, ih.1 hrest, (Except.ok.inj h).symm⟩
      · rintro ⟨b', cs, hb, hcs, rfl⟩
        obtain rfl := Except.ok.inj (hl.symm.trans hb)
        rw [ih.2 hcs]
        rfl

theorem blocksFrom_append (h : blocksFrom number ls = .ok bs) (ls' : List (List Char)) :
    blocksFrom number (ls ++ ls') =
      (blocksFrom (number + ls.length) ls').map (bs ++ ·) := by
  rw [blocksFrom_eq_ok_iff] at h
  induction h generalizing number with
  | nil => cases h : blocksFrom number ls' <;> simp [h, Except.map]
  | @cons l b ls bs hl _ ih =>
    rw [List.cons_append, blocksFrom_cons_of_ok hl, ih, List.length_cons,
      show number + (ls.length + 1) = number + 1 + ls.length by omega]
    cases blocksFrom (number + 1 + ls.length) ls' <;> rfl

theorem blocksFrom_eq_error {e : LineError} (h : blocksFrom number ls = .error e) :
    ∃ before l after, ls = before ++ l :: after ∧ e.line = number + before.length ∧
      Block.ofLine l = .error e.error ∧ ∀ k ∈ before, ∃ b, Block.ofLine k = .ok b := by
  induction ls generalizing number with
  | nil => simp [blocksFrom_nil] at h
  | cons l ls ih =>
    cases hl : Block.ofLine l with
    | error e' =>
      rw [blocksFrom_cons_of_error hl] at h
      cases h
      exact ⟨[], l, ls, rfl, rfl, hl, by simp⟩
    | ok b =>
      rw [blocksFrom_cons_of_ok hl] at h
      cases hrest : blocksFrom (number + 1) ls with
      | ok bs => simp [hrest, Except.map] at h
      | error e' =>
        rw [hrest] at h
        cases h
        obtain ⟨before, k, after, rfl, hline, hk, hbefore⟩ := ih hrest
        refine ⟨l :: before, k, after, rfl, ?_, hk, ?_⟩
        · rw [hline, List.length_cons]
          omega
        · exact List.forall_mem_cons.2 ⟨⟨b, hl⟩, hbefore⟩

variable {text : List Char}

theorem blocks_append (hends : EndsLine text) (h : blocks text = .ok bs) (more : List Char) :
    blocks (text ++ more) = ((blocks more).map (bs ++ ·)).mapError (·.raise bs.length) := by
  have hlength : (lines text).length = bs.length := (blocksFrom_eq_ok_iff.1 h).length_eq
  unfold blocks
  rw [lines_append hends, blocksFrom_append h, hlength, blocksFrom_raise]
  cases blocksFrom 1 (lines more) <;> rfl

theorem exists_line_of_block {done rest : List Block} {b : Block}
    (h : blocks text = .ok (done ++ b :: rest)) :
    ∃ line, LineAt text (done.length + 1) line ∧ Block.ofLine line = .ok b := by
  have hpairs := blocksFrom_eq_ok_iff.1 h
  have hdone : done.length < (lines text).length := by
    rw [hpairs.length_eq, List.length_append, List.length_cons]
    omega
  refine ⟨(lines text)[done.length], lineAt_iff.2 (List.getElem?_eq_getElem hdone), ?_⟩
  have hline := hpairs.get hdone (by simp)
  simpa using hline

theorem first_bad_line {e : LineError} (h : blocks text = .error e) :
    (∃ line, LineAt text e.line line ∧ Block.ofLine line = .error e.error) ∧
      ∀ n < e.line, ∀ line, LineAt text n line → ∃ b, Block.ofLine line = .ok b := by
  obtain ⟨before, l, after, hlines, hnumber, hl, hbefore⟩ := blocksFrom_eq_error h
  rw [Nat.add_comm] at hnumber
  rw [hnumber]
  refine ⟨⟨l, lineAt_iff.2 ?_, hl⟩, ?_⟩
  · rw [hlines]
    simp
  · intro n hn line hline
    cases n with
    | zero => cases hline
    | succ n =>
      have hget := lineAt_iff.1 hline
      rw [hlines, List.getElem?_append_left (by omega)] at hget
      exact hbefore line (List.mem_of_getElem? hget)

end Reading

end Toolpath.Program
