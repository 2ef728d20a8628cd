import Toolpath.Program.Block
import Toolpath.Proofs.Number.Decimal
import Toolpath.Proofs.Number.Numeral
import Toolpath.Proofs.Program.Writing

/-!
# Words of a line

A line is read as a block exactly if each of its words has a numeral. The block then has these
words in order, with numbers for values, and the first comment. Any other line is refused for the
first word that has none.
-/

namespace Toolpath.Program

open Toolpath.Number (Numeral decimal?)

/-- A comment as written and what is written in it. -/
inductive Delimits : List Char → List Char → Prop
  | semicolon (body : List Char) : Delimits (';' :: body) body
  | parentheses {body : List Char} (inside : ')' ∉ body) : Delimits ('(' :: (body ++ [')'])) body
  | unclosed {body : List Char} (inside : ')' ∉ body) : Delimits ('(' :: body) body

inductive WellFormed : Token → Prop
  | word {letter : Char} {value : List Char} (chars : ∀ c ∈ value, isValueChar c = true) :
      WellFormed (.word letter value)
  | comment {text body : List Char} (delimited : Delimits text body) : WellFormed (.comment text)

def IsNumeral (value : List Char) : Prop := ∃ n : Numeral, n.text = value

def AllNumerals (ts : List Token) : Prop :=
  ∀ letter value, Token.word letter value ∈ ts → IsNumeral value

def Token.word? : Token → Option (Char × List Char)
  | .word letter value => some (letter, value)
  | .comment _ => none

/-- A word is read with its letter in upper case and its numeral as a number. -/
structure Transcribes (written : Char × List Char) (w : Word) : Prop where
  letter : w.letter = written.1.toUpper
  value : ∃ n : Numeral, n.text = written.2 ∧ w.value = n.decimal.value
  number : w.value.isNaN = false

inductive FirstComment (ts : List Token) : Option (List Char) → Prop
  | none (missing : ∀ text, Token.comment text ∉ ts) : FirstComment ts none
  | some (before after : List Token) {text body : List Char}
      (split : ts = before ++ .comment text :: after)
      (first : ∀ text, Token.comment text ∉ before) (delimited : Delimits text body) :
      FirstComment ts (some body)

def complaint (letter : Char) (value : List Char) : WordError :=
  if value = [] then .missingValue letter.toUpper else .invalidNumber (letter :: value)

/-- The complaint is about the first word that has no numeral. -/
inductive FirstBad (ts : List Token) : WordError → Prop
  | intro (before after : List Token) {letter : Char} {value : List Char}
      (split : ts = before ++ .word letter value :: after) (earlier : AllNumerals before)
      (bad : ¬ IsNumeral value) : FirstBad ts (complaint letter value)

/-- What a line with these tokens is read as. -/
inductive Outcome (ts : List Token) : Except WordError Block → Prop
  | block {b : Block} (words : List.Forall₂ Transcribes (ts.filterMap Token.word?) b.words)
      (comment : FirstComment ts b.comment) : Outcome ts (.ok b)
  | refusal {e : WordError} (bad : FirstBad ts e) : Outcome ts (.error e)

section Tokens

theorem bne_close_iff {body : List Char} :
    (∀ c ∈ body, (c != ')') = true) ↔ ')' ∉ body := by
  simp only [bne_iff_ne, ne_eq]
  constructor
  · exact fun h hmem => h _ hmem rfl
  · rintro h c hc rfl
    exact h hc

theorem eq_close_of_dropWhile {cs rest : List Char} {close : Char}
    (h : cs.dropWhile (· != ')') = close :: rest) : close = ')' := by
  have hnot := List.head?_dropWhile_not (· != ')') cs
  rw [h] at hnot
  simpa using hnot

theorem wellFormed_tokens (line : List Char) : ∀ t ∈ tokens line, WellFormed t := by
  induction line using tokens.induct with
  | case1 => simp
  | case2 cs =>
    rw [tokens_semicolon, List.forall_mem_singleton]
    exact .comment (.semicolon cs)
  | case3 cs hunclosed =>
    have hbody : ∀ c ∈ cs, (c != ')') = true := List.dropWhile_eq_nil_iff.1 hunclosed
    rw [tokens_unclosed hbody, List.forall_mem_singleton]
    exact .comment (.unclosed (bne_close_iff.1 hbody))
  | case4 cs close rest hclosed _ ih =>
    -- The line is written with the body and its end, which is where the rest is read from.
    obtain rfl := eq_close_of_dropWhile hclosed
    have hcs := List.takeWhile_append_dropWhile (p := (· != ')')) (l := cs)
    have hbody : ∀ c ∈ cs.takeWhile (· != ')'), (c != ')') = true :=
      fun _ => List.mem_takeWhile_imp
    rw [hclosed] at hcs
    rw [← hcs, tokens_parenthesis hbody, List.forall_mem_cons]
    exact ⟨.comment (.parentheses (bne_close_iff.1 hbody)), ih⟩
  | case5 c cs _ _ hletter value ih =>
    rw [tokens_letter hletter, List.forall_mem_cons]
    exact ⟨.word fun _ => List.mem_takeWhile_imp, ih⟩
  | case6 c cs hsemicolon hparenthesis hletter ih =>
    rw [tokens_skip ⟨hsemicolon, hparenthesis⟩ (Bool.not_eq_true _ ▸ hletter)]
    exact ih

theorem Delimits.commentBody_eq {text body : List Char} (h : Delimits text body) :
    commentBody text = body := by
  cases h with
  | semicolon => rfl
  | parentheses _ => simp [commentBody]
  | unclosed inside =>
    have hlast : body.getLast? ≠ some ')' := fun h => inside (List.mem_of_getLast? h)
    rw [commentBody, if_neg hlast]

end Tokens

section Comments

variable {ts : List Token} {letter : Char} {value : List Char}

theorem FirstComment.after_word {c : Option (List Char)} (h : FirstComment ts c) :
    FirstComment (.word letter value :: ts) c := by
  cases h with
  | none missing => exact .none fun text hmem => missing text (by simpa using hmem)
  | some before after split first delimited =>
    refine .some (.word letter value :: before) after ?_ (fun text hmem => first text ?_) delimited
    · exact congrArg (Token.word letter value :: ·) split
    · simpa using hmem

theorem firstComment_spec (hts : ∀ t ∈ ts, WellFormed t) : FirstComment ts (firstComment ts) := by
  induction ts with
  | nil => exact .none fun text => List.not_mem_nil
  | cons t ts ih =>
    obtain ⟨ht, hrest⟩ := List.forall_mem_cons.1 hts
    cases ht with
    | comment delimited =>
      rw [firstComment, delimited.commentBody_eq]
      exact .some [] ts rfl (fun text => List.not_mem_nil) delimited
    | word chars => exact (ih hrest).after_word

end Comments

section Reading

variable {ts : List Token} {t : Token} {e : WordError} {value : List Char}

theorem no_exponent (hvalue : ∀ c ∈ value, isValueChar c = true) :
    ∀ c ∈ value, c ≠ 'e' ∧ c ≠ 'E' := by
  intro c hc
  have hchar := hvalue c hc
  constructor <;> rintro rfl <;> cases hchar

theorem read_numeral (letter : Char) (n : Numeral) :
    ∃ w, Word.read letter n.text = .ok w ∧ Transcribes (letter, n.text) w := by
  refine ⟨{ letter := letter.toUpper, value := n.decimal.value }, ?_, rfl, ⟨n, rfl, rfl⟩,
    n.decimal.isNaN_value⟩
  rw [Word.read, if_neg n.text_ne_nil, Number.decimal?_text]

theorem read_of_not_numeral (letter : Char) (hvalue : ∀ c ∈ value, isValueChar c = true)
    (h : ¬ IsNumeral value) : Word.read letter value = .error (complaint letter value) := by
  by_cases hempty : value = []
  · rw [Word.read, complaint, if_pos hempty, if_pos hempty]
  · have hnone : decimal? value = none := by
      cases hd : decimal? value with
      | none => rfl
      | some d =>
        obtain ⟨n, htext, -⟩ := Number.exists_numeral (no_exponent hvalue) hd
        exact absurd ⟨n, htext⟩ h
    rw [Word.read, complaint, if_neg hempty, if_neg hempty, hnone]

theorem FirstBad.after (h : FirstBad ts e) (ht : ∀ letter value, t = .word letter value →
    IsNumeral value) : FirstBad (t :: ts) e := by
  cases h with
  | intro before after split earlier bad =>
    refine .intro (t :: before) after (congrArg (t :: ·) split) (fun letter value hmem => ?_) bad
    rcases List.mem_cons.1 hmem with rfl | hmem
    · exact ht letter value rfl
    · exact earlier letter value hmem

/-- The words are read up to the first one that has no numeral. -/
theorem readWords_spec (hts : ∀ t ∈ ts, WellFormed t) :
    (∃ ws, readWords ts = .ok ws ∧ List.Forall₂ Transcribes (ts.filterMap Token.word?) ws) ∨
      ∃ e, readWords ts = .error e ∧ FirstBad ts e := by
  induction ts with
  | nil => exact .inl ⟨[], rfl, .nil⟩
  | cons t ts ih =>
    obtain ⟨ht, hrest⟩ := List.forall_mem_cons.1 hts
    cases ht with
    | comment delimited =>
      refine (ih hrest).imp (fun h => h) ?_
      rintro ⟨e, hread, hbad⟩
      exact ⟨e, hread, hbad.after fun letter value h => by cases h⟩
    | @word letter value chars =>
      -- Without a numeral this word is the first bad one, whatever follows.
      by_cases hnumeral : IsNumeral value
      · obtain ⟨n, rfl⟩ := hnumeral
        obtain ⟨w, hw, hword⟩ := read_numeral letter n
        rcases ih hrest with ⟨ws, hread, hwords⟩ | ⟨e, hread, hbad⟩
        · exact .inl ⟨w :: ws, by rw [readWords, hw, hread]; rfl, .cons hword hwords⟩
        · refine .inr ⟨e, by rw [readWords, hw, hread]; rfl, hbad.after ?_⟩
          rintro _ _ ⟨⟩
          exact ⟨n, rfl⟩
      · have hw := read_of_not_numeral letter chars hnumeral
        refine .inr ⟨complaint letter value, by rw [readWords, hw]; rfl, ?_⟩
        exact .intro [] ts rfl (fun _ _ => List.not_mem_nil.elim) hnumeral

theorem allNumerals_of_transcribed {ws : List Word}
    (h : List.Forall₂ Transcribes (ts.filterMap Token.word?) ws) : AllNumerals ts := by
  have hnumerals : ∀ t ∈ ts.filterMap Token.word?, IsNumeral t.2 := by
    refine ((List.forall₂_and_left _ _).1 (h.imp fun written w hw => ⟨?_, hw⟩)).1
    obtain ⟨n, htext, -⟩ := hw.value
    exact ⟨n, htext⟩
  intro letter value hmem
  exact hnumerals _ (List.mem_filterMap.2 ⟨_, hmem, rfl⟩)

theorem FirstBad.not_allNumerals (h : FirstBad ts e) : ¬ AllNumerals ts := by
  cases h with
  | intro before after split earlier bad =>
    intro hall
    exact bad (hall _ _ (split ▸ List.mem_append_right _ List.mem_cons_self))

end Reading

/-- A line is a block exactly if all its words have numerals. Then it is these words and the first
comment, and otherwise a complaint about the first word that has none. -/
theorem ofLine_outcome (line : List Char) : Outcome (tokens line) (Block.ofLine line) ∧
    ((∃ b, Block.ofLine line = .ok b) ↔ AllNumerals (tokens line)) := by
  have hformed := wellFormed_tokens line
  rcases readWords_spec hformed with ⟨ws, hread, hwords⟩ | ⟨e, hread, hbad⟩
  · have hline : Block.ofLine line = .ok ⟨ws, firstComment (tokens line)⟩ := by
      rw [Block.ofLine, Block.ofTokens, hread]
      rfl
    rw [hline]
    refine ⟨.block hwords (firstComment_spec hformed), ?_⟩
    exact ⟨fun _ => allNumerals_of_transcribed hwords, fun _ => ⟨_, rfl⟩⟩
  · have hline : Block.ofLine line = .error e := by
      rw [Block.ofLine, Block.ofTokens, hread]
      rfl
    rw [hline]
    refine ⟨.refusal hbad, ?_⟩
    constructor
    · rintro ⟨b, hb⟩
      cases hb
    · exact fun hall => absurd hall hbad.not_allNumerals

end Toolpath.Program
