import Mathlib.Data.List.TakeWhile
import Toolpath.Program.Token

/-!
# Ways of writing a line

The same words and comments may be written with more or fewer separators between them, and with
blanks between a letter and its value. Reading gives them back from each way of writing them.
-/

namespace Toolpath.Program

abbrev Run (kind : Char → Bool) := { cs : List Char // ∀ c ∈ cs, kind c = true }

def isSeparator (c : Char) : Bool := isBlank c || c == '\r' || c == '\n' || c == '%'

/-- A letter with the text of its value and the blanks between them, or a comment in parentheses. -/
inductive Item where
  | word (letter : { c : Char // c.isAlpha = true }) (blanks : Run isBlank) (value : Run isValueChar)
  | comment (body : Run (· != ')'))

namespace Item

def text : Item → List Char
  | .word letter blanks value => letter :: (blanks.1 ++ value.1)
  | .comment body => '(' :: (body.1 ++ [')'])

def token : Item → Token
  | .word letter _ value => .word letter value
  | .comment body => .comment ('(' :: (body.1 ++ [')']))

end Item

/-- The end of a line may be a comment that nothing closes. -/
inductive Ending where
  | plain
  | semicolon (text : List Char)
  | parenthesis (text : Run (· != ')'))

namespace Ending

def text : Ending → List Char
  | .plain => []
  | .semicolon text => ';' :: text
  | .parenthesis text => '(' :: text.1

def tokens : Ending → List Token
  | .plain => []
  | .semicolon text => [.comment (';' :: text)]
  | .parenthesis text => [.comment ('(' :: text.1)]

end Ending

/-- A line with separators in front of each item and of the end. It may be marked by slashes at
its start. -/
structure Writing where
  lead : Run fun c => c == '/' || isSeparator c
  items : List (Run isSeparator × Item)
  gap : Run isSeparator
  ending : Ending

namespace Writing

def rest (items : List (Run isSeparator × Item)) (gap : Run isSeparator) (ending : Ending) :
    List Char :=
  (items.flatMap fun i => i.1.1 ++ i.2.text) ++ (gap.1 ++ ending.text)

def text (w : Writing) : List Char := w.lead.1 ++ rest w.items w.gap w.ending

def tokens (w : Writing) : List Token := w.items.map (·.2.token) ++ w.ending.tokens

end Writing

/-- What follows is not taken for a value, also if blanks are passed over. -/
def EndsValue (cs : List Char) : Prop := ∀ c ∈ (cs.dropWhile isBlank).head?, isValueChar c = false

section Characters

variable {c : Char}

theorem isValueChar_of_isBlank (h : isBlank c = true) : isValueChar c = false := by
  simp only [isBlank, Bool.or_eq_true, beq_iff_eq] at h
  rcases h with rfl | rfl <;> decide

theorem isValueChar_of_isSeparator (h : isSeparator c = true) : isValueChar c = false := by
  simp only [isSeparator, Bool.or_eq_true, beq_iff_eq] at h
  rcases h with ((hblank | rfl) | rfl) | rfl
  · exact isValueChar_of_isBlank hblank
  all_goals decide

theorem isDigit_of_isAlpha (h : c.isAlpha = true) : c.isDigit = false := by
  have hcase : c.isUpper = true ∨ c.isLower = true := Bool.or_eq_true_iff.1 h
  -- all letters come after the digits
  have hletter : 65 ≤ c.val.toNat := by
    rcases hcase with hupper | hlower
    · exact UInt32.le_iff_toNat_le.1 (of_decide_eq_true hupper).1
    · have hlow := of_decide_eq_true (Bool.and_eq_true_iff.1 hlower).1
      exact Nat.le_trans (by decide) (UInt32.le_iff_toNat_le.1 hlow)
  refine Bool.and_eq_false_iff.2 (.inr (decide_eq_false fun hdigit => ?_))
  have hnine : c.val.toNat ≤ 57 := UInt32.le_iff_toNat_le.1 hdigit
  omega

theorem ne_of_isAlpha {d : Char} (h : c.isAlpha = true) (hd : d.isAlpha = false) : c ≠ d := by
  rintro rfl
  rw [h] at hd
  cases hd

theorem isValueChar_of_isAlpha (h : c.isAlpha = true) : isValueChar c = false := by
  have hpoint : c ≠ '.' := ne_of_isAlpha h (by decide)
  have hminus : c ≠ '-' := ne_of_isAlpha h (by decide)
  have hplus : c ≠ '+' := ne_of_isAlpha h (by decide)
  simp [isValueChar, isDigit_of_isAlpha h, hpoint, hminus, hplus]

theorem isBlank_of_isAlpha (h : c.isAlpha = true) : isBlank c = false := by
  have hspace : c ≠ ' ' := ne_of_isAlpha h (by decide)
  have htab : c ≠ '\t' := ne_of_isAlpha h (by decide)
  simp [isBlank, hspace, htab]

end Characters

section Boundaries

variable {cs gap : List Char} {c : Char}

@[simp] theorem endsValue_nil : EndsValue [] := by
  intro c hc
  cases hc

theorem endsValue_cons (hblank : isBlank c = false) (hvalue : isValueChar c = false)
    (cs : List Char) : EndsValue (c :: cs) := by
  intro d hd
  rw [List.dropWhile_cons_of_neg (by simp [hblank])] at hd
  obtain rfl := Option.mem_some.1 hd
  exact hvalue

theorem EndsValue.separated (h : EndsValue cs) (hgap : ∀ c ∈ gap, isSeparator c = true) :
    EndsValue (gap ++ cs) := by
  induction gap with
  | nil => exact h
  | cons c gap ih =>
    by_cases hblank : isBlank c = true
    · intro d hd
      rw [List.cons_append, List.dropWhile_cons_of_pos hblank] at hd
      exact ih (fun e he => hgap e (List.mem_cons_of_mem c he)) d hd
    · rw [Bool.not_eq_true] at hblank
      exact endsValue_cons hblank (isValueChar_of_isSeparator (hgap c List.mem_cons_self)) _

theorem Item.endsValue (i : Item) (cs : List Char) : EndsValue (i.text ++ cs) := by
  cases i with
  | word letter blanks value =>
    exact endsValue_cons (isBlank_of_isAlpha letter.2) (isValueChar_of_isAlpha letter.2) _
  | comment body => exact endsValue_cons (by decide) (by decide) _

theorem Ending.endsValue (e : Ending) : EndsValue e.text := by
  cases e with
  | plain => exact endsValue_nil
  | semicolon text => exact endsValue_cons (by decide) (by decide) _
  | parenthesis text => exact endsValue_cons (by decide) (by decide) _

theorem EndsValue.head (h : EndsValue cs) : ∀ c ∈ cs.head?, isValueChar c = false := by
  intro c hc
  by_cases hblank : isBlank c = true
  · exact isValueChar_of_isBlank hblank
  · obtain ⟨rest, rfl⟩ := List.head?_eq_some_iff.1 hc
    exact h c (by rw [List.dropWhile_cons_of_neg hblank]; rfl)

theorem span_of_head {kind : Char → Bool} (h : ∀ c ∈ cs.head?, kind c = false) :
    cs.takeWhile kind = [] ∧ cs.dropWhile kind = cs := by
  cases cs with
  | nil => exact ⟨rfl, rfl⟩
  | cons c cs => simp [h c rfl]

/-- Nothing that may follow a word lengthens its value. -/
theorem endsValue_rest (items : List (Run isSeparator × Item)) (gap : Run isSeparator)
    (ending : Ending) : EndsValue (Writing.rest items gap ending) := by
  cases items with
  | nil => exact ending.endsValue.separated gap.2
  | cons i items =>
    have hitem := (i.2.endsValue (Writing.rest items gap ending)).separated i.1.2
    simpa [Writing.rest] using hitem

end Boundaries

section Reading

variable {cs body value : List Char} {c : Char}

@[simp] theorem tokens_nil : tokens [] = [] := by rw [tokens]

theorem tokens_semicolon (text : List Char) :
    tokens (';' :: text) = [.comment (';' :: text)] := by
  rw [tokens, if_pos rfl]

theorem span_parenthesis (hbody : ∀ c ∈ body, (c != ')') = true) (cs : List Char) :
    (body ++ ')' :: cs).takeWhile (· != ')') = body ∧
      (body ++ ')' :: cs).dropWhile (· != ')') = ')' :: cs := by
  rw [List.takeWhile_append_of_pos hbody, List.dropWhile_append_of_pos hbody]
  exact ⟨List.append_nil body, rfl⟩

theorem tokens_parenthesis (hbody : ∀ c ∈ body, (c != ')') = true) (cs : List Char) :
    tokens ('(' :: (body ++ ')' :: cs)) = .comment ('(' :: (body ++ [')'])) :: tokens cs := by
  obtain ⟨htake, hdrop⟩ := span_parenthesis hbody cs
  rw [tokens, if_neg (by decide), if_pos rfl]
  dsimp only
  split
  · rename_i hnil
    rw [hdrop] at hnil
    cases hnil
  · rename_i close rest hclose
    rw [hdrop] at hclose
    obtain ⟨rfl, rfl⟩ := List.cons.inj hclose
    rw [htake]
    rfl

theorem tokens_unclosed (hbody : ∀ c ∈ body, (c != ')') = true) :
    tokens ('(' :: body) = [.comment ('(' :: body)] := by
  have htake : body.takeWhile (· != ')') = body := List.takeWhile_eq_self_iff.2 hbody
  have hdrop : body.dropWhile (· != ')') = [] := List.dropWhile_eq_nil_iff.2 hbody
  rw [tokens, if_neg (by decide), if_pos rfl]
  dsimp only
  split
  · rw [htake]
  · rename_i hclose
    rw [hdrop] at hclose
    cases hclose

theorem tokens_skip (hcomment : c ≠ ';' ∧ c ≠ '(') (hletter : c.isAlpha = false)
    (cs : List Char) : tokens (c :: cs) = tokens cs := by
  rw [tokens, if_neg hcomment.1, if_neg hcomment.2, if_neg (by simp [hletter])]

theorem tokens_separated (hcs : ∀ c ∈ cs, c = '/' ∨ isSeparator c = true) (rest : List Char) :
    tokens (cs ++ rest) = tokens rest := by
  induction cs with
  | nil => rfl
  | cons c cs ih =>
    have hc := hcs c List.mem_cons_self
    simp only [isSeparator, isBlank, Bool.or_eq_true, beq_iff_eq] at hc
    have hskip : (c ≠ ';' ∧ c ≠ '(') ∧ c.isAlpha = false := by
      rcases hc with rfl | (((rfl | rfl) | rfl) | rfl) | rfl <;> decide
    rw [List.cons_append, tokens_skip hskip.1 hskip.2]
    exact ih fun d hd => hcs d (List.mem_cons_of_mem c hd)

theorem tokens_dropWhile_isBlank (cs : List Char) :
    tokens (cs.dropWhile isBlank) = tokens cs := by
  have hblanks : ∀ c ∈ cs.takeWhile isBlank, c = '/' ∨ isSeparator c = true := by
    intro c hc
    have hblank := List.mem_takeWhile_imp hc
    exact .inr (by simp [isSeparator, hblank])
  calc tokens (cs.dropWhile isBlank)
    _ = tokens (cs.takeWhile isBlank ++ cs.dropWhile isBlank) :=
        (tokens_separated hblanks _).symm
    _ = tokens cs := by rw [List.takeWhile_append_dropWhile]

theorem tokens_letter (hletter : c.isAlpha = true) (cs : List Char) :
    tokens (c :: cs) = .word c ((cs.dropWhile isBlank).takeWhile isValueChar) ::
      tokens ((cs.dropWhile isBlank).dropWhile isValueChar) := by
  have hsemicolon : c ≠ ';' := ne_of_isAlpha hletter (by decide)
  have hparenthesis : c ≠ '(' := ne_of_isAlpha hletter (by decide)
  rw [tokens, if_neg hsemicolon, if_neg hparenthesis, if_pos hletter]

theorem tokens_word (hletter : c.isAlpha = true) {blanks : List Char}
    (hblanks : ∀ b ∈ blanks, isBlank b = true) (hvalue : ∀ v ∈ value, isValueChar v = true)
    (hends : EndsValue cs) :
    tokens (c :: (blanks ++ (value ++ cs))) = .word c value :: tokens cs := by
  rw [tokens_letter hletter, List.dropWhile_append_of_pos hblanks]
  cases value with
  | nil =>
    -- The blanks of the gap are passed over together with those of the word.
    obtain ⟨htake, hdrop⟩ := span_of_head hends
    rw [List.nil_append, htake, hdrop, tokens_dropWhile_isBlank]
  | cons v value =>
    have hfirst : ¬ isBlank v = true := by
      intro hblank
      have hv := hvalue v List.mem_cons_self
      rw [isValueChar_of_isBlank hblank] at hv
      cases hv
    obtain ⟨htake, hdrop⟩ := span_of_head hends.head
    rw [List.cons_append, List.dropWhile_cons_of_neg hfirst, ← List.cons_append,
      List.takeWhile_append_of_pos hvalue, List.dropWhile_append_of_pos hvalue, htake, hdrop,
      List.append_nil]

theorem tokens_rest (items : List (Run isSeparator × Item)) (gap : Run isSeparator)
    (ending : Ending) :
    tokens (Writing.rest items gap ending) = items.map (·.2.token) ++ ending.tokens := by
  induction items with
  | nil =>
    have hgap : tokens (Writing.rest [] gap ending) = tokens ending.text :=
      tokens_separated (fun c hc => .inr (gap.2 c hc)) _
    rw [hgap]
    cases ending with
    | plain => exact tokens_nil
    | semicolon text => exact tokens_semicolon text
    | parenthesis text => exact tokens_unclosed text.2
  | cons i items ih =>
    obtain ⟨front, item⟩ := i
    have hgap : tokens (Writing.rest ((front, item) :: items) gap ending) =
        tokens (item.text ++ Writing.rest items gap ending) := by
      have hsplit : Writing.rest ((front, item) :: items) gap ending =
          front.1 ++ (item.text ++ Writing.rest items gap ending) := by
        simp [Writing.rest]
      rw [hsplit]
      exact tokens_separated (fun c hc => .inr (front.2 c hc)) _
    rw [hgap, List.map_cons, List.cons_append, ← ih]
    cases item with
    | word letter blanks value =>
      have hword := tokens_word letter.2 blanks.2 value.2 (endsValue_rest items gap ending)
      simpa [Item.text, Item.token] using hword
    | comment body =>
      have hcomment := tokens_parenthesis body.2 (Writing.rest items gap ending)
      simpa [Item.text, Item.token] using hcomment

end Reading

/-- Reading inverts writing: each word and each comment comes back as one token. -/
theorem tokens_text (w : Writing) : tokens w.text = w.tokens := by
  have hlead : ∀ c ∈ w.lead.1, c = '/' ∨ isSeparator c = true := by
    intro c hc
    simpa using w.lead.2 c hc
  rw [Writing.text, tokens_separated hlead, tokens_rest]
  rfl

end Toolpath.Program
