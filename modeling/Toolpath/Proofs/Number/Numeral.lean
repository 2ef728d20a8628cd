import Mathlib.Data.List.TakeWhile
import Toolpath.Number.Reading

/-!
# Numerals

A numeral is a decimal without an exponent. Of the texts with no letters in them, exactly the
numerals are read.
-/

namespace Toolpath.Number

abbrev Digits := { cs : List Char // ∀ c ∈ cs, c.isDigit = true }

inductive Figures where
  | integer (whole : Digits) (nonempty : whole.1 ≠ [])
  | pointed (whole : Digits) (nonempty : whole.1 ≠ []) (fraction : Digits)
  | fractional (fraction : Digits) (nonempty : fraction.1 ≠ [])

namespace Figures

def text : Figures → List Char
  | .integer whole _ => whole.1
  | .pointed whole _ fraction => whole.1 ++ '.' :: fraction.1
  | .fractional fraction _ => '.' :: fraction.1

def whole : Figures → List Char
  | .integer whole _ => whole.1
  | .pointed whole _ _ => whole.1
  | .fractional _ _ => []

def fraction : Figures → List Char
  | .integer _ _ => []
  | .pointed _ _ fraction => fraction.1
  | .fractional fraction _ => fraction.1

end Figures

inductive SignMark where
  | plus
  | minus
  deriving DecidableEq

def markText : Option SignMark → List Char
  | none => []
  | some .plus => ['+']
  | some .minus => ['-']

structure Numeral where
  sign : Option SignMark
  figures : Figures

namespace Numeral

def text (n : Numeral) : List Char := markText n.sign ++ n.figures.text

def decimal (n : Numeral) : Decimal where
  negative := n.sign = some .minus
  digits := ofDigits (n.figures.whole ++ n.figures.fraction)
  exponent := -n.figures.fraction.length

end Numeral

section Signs

variable {cs : List Char}

theorem splitSign_of_head (h : ∀ c ∈ cs.head?, c ≠ '-' ∧ c ≠ '+') : splitSign cs = (false, cs) := by
  cases cs with
  | nil => rfl
  | cons c cs =>
    obtain ⟨hminus, hplus⟩ := h c rfl
    unfold splitSign
    split
    · rename_i heq
      exact absurd (List.cons.inj heq).1 hminus
    · rename_i heq
      exact absurd (List.cons.inj heq).1 hplus
    · rfl

theorem splitSign_markText (sign : Option SignMark) (h : ∀ c ∈ cs.head?, c ≠ '-' ∧ c ≠ '+') :
    splitSign (markText sign ++ cs) = (decide (sign = some .minus), cs) := by
  rcases sign with _ | _ | _
  · exact splitSign_of_head h
  · rfl
  · rfl

theorem exists_sign (cs : List Char) : ∃ sign : Option SignMark,
    markText sign ++ (splitSign cs).2 = cs ∧ (splitSign cs).1 = decide (sign = some .minus) := by
  unfold splitSign
  split
  · exact ⟨some .minus, rfl, rfl⟩
  · exact ⟨some .plus, rfl, rfl⟩
  · exact ⟨none, rfl, rfl⟩

end Signs

section Points

variable {cs : List Char}

theorem takeWhile_digits (ds : Digits) : ds.1.takeWhile Char.isDigit = ds.1 :=
  List.takeWhile_eq_self_iff.2 ds.2

theorem dropWhile_digits (ds : Digits) : ds.1.dropWhile Char.isDigit = [] :=
  List.dropWhile_eq_nil_iff.2 ds.2

theorem splitPoint_text (f : Figures) : splitPoint f.text = (f.whole, f.fraction, []) := by
  cases f with
  | integer whole _ =>
    simp [splitPoint, Figures.text, Figures.whole, Figures.fraction, takeWhile_digits,
      dropWhile_digits]
  | pointed whole _ fraction =>
    have htake : (whole.1 ++ '.' :: fraction.1).takeWhile Char.isDigit = whole.1 := by
      rw [List.takeWhile_append_of_pos whole.2]
      exact List.append_nil whole.1
    have hdrop : (whole.1 ++ '.' :: fraction.1).dropWhile Char.isDigit = '.' :: fraction.1 := by
      rw [List.dropWhile_append_of_pos whole.2]
      rfl
    simp [splitPoint, Figures.text, Figures.whole, Figures.fraction, htake, hdrop,
      takeWhile_digits, dropWhile_digits]
  | fractional fraction _ =>
    have htake : ('.' :: fraction.1).takeWhile Char.isDigit = [] := rfl
    have hdrop : ('.' :: fraction.1).dropWhile Char.isDigit = '.' :: fraction.1 := rfl
    simp [splitPoint, Figures.text, Figures.whole, Figures.fraction, htake, hdrop,
      takeWhile_digits, dropWhile_digits]

theorem splitPoint_of_point {rest : List Char} (h : cs.dropWhile Char.isDigit = '.' :: rest) :
    splitPoint cs = (cs.takeWhile Char.isDigit, rest.takeWhile Char.isDigit,
      rest.dropWhile Char.isDigit) := by
  simp [splitPoint, h]

theorem splitPoint_of_no_point (h : ∀ rest, cs.dropWhile Char.isDigit ≠ '.' :: rest) :
    splitPoint cs = (cs.takeWhile Char.isDigit, [], cs.dropWhile Char.isDigit) := by
  unfold splitPoint
  split
  · rename_i rest hpoint
    exact absurd hpoint (h rest)
  · rfl

def leadingDigits (cs : List Char) : Digits :=
  ⟨cs.takeWhile Char.isDigit, fun _ => List.mem_takeWhile_imp⟩

theorem leadingDigits_append (cs : List Char) :
    (leadingDigits cs).1 ++ cs.dropWhile Char.isDigit = cs :=
  List.takeWhile_append_dropWhile

theorem exists_figures {whole fraction : List Char} (h : splitPoint cs = (whole, fraction, []))
    (hsome : ¬ (whole = [] ∧ fraction = [])) : ∃ f : Figures,
    f.text = cs ∧ f.whole = whole ∧ f.fraction = fraction := by
  by_cases hpoint : ∃ rest, cs.dropWhile Char.isDigit = '.' :: rest
  · obtain ⟨rest, hpoint⟩ := hpoint
    rw [splitPoint_of_point hpoint] at h
    simp only [Prod.mk.injEq] at h
    obtain ⟨rfl, rfl, hend⟩ := h
    have hrest := leadingDigits_append rest
    rw [hend, List.append_nil] at hrest
    have hcs := leadingDigits_append cs
    rw [hpoint] at hcs
    -- Digits before the point tell the two forms with a point apart.
    by_cases hwhole : (leadingDigits cs).1 = []
    · have hfraction : (leadingDigits rest).1 ≠ [] := fun hnone => hsome ⟨hwhole, hnone⟩
      refine ⟨.fractional (leadingDigits rest) hfraction, ?_, hwhole.symm, rfl⟩
      rw [Figures.text, hrest]
      rwa [hwhole, List.nil_append] at hcs
    · refine ⟨.pointed (leadingDigits cs) hwhole (leadingDigits rest), ?_, rfl, rfl⟩
      rwa [Figures.text, hrest]
  · rw [splitPoint_of_no_point fun rest hrest => hpoint ⟨rest, hrest⟩] at h
    simp only [Prod.mk.injEq] at h
    obtain ⟨rfl, rfl, hend⟩ := h
    have hcs := leadingDigits_append cs
    rw [hend, List.append_nil] at hcs
    exact ⟨.integer (leadingDigits cs) fun hnone => hsome ⟨hnone, rfl⟩, hcs, rfl, rfl⟩

theorem head_digits {ds : Digits} (hne : ds.1 ≠ []) (cs : List Char) :
    ∀ c ∈ (ds.1 ++ cs).head?, c ≠ '-' ∧ c ≠ '+' := by
  obtain ⟨d, rest, hds⟩ := List.exists_cons_of_ne_nil hne
  have hdigit := ds.2 d (hds ▸ List.mem_cons_self)
  intro c hc
  rw [hds, List.cons_append] at hc
  obtain rfl := Option.mem_some.1 hc
  constructor <;> rintro rfl <;> cases hdigit

theorem Figures.head_text (f : Figures) : ∀ c ∈ f.text.head?, c ≠ '-' ∧ c ≠ '+' := by
  cases f with
  | integer whole hne => simpa [Figures.text] using head_digits hne []
  | pointed whole hne fraction => exact head_digits hne _
  | fractional fraction hne =>
    intro c hc
    obtain rfl := Option.mem_some.1 hc
    decide

theorem Figures.not_empty (f : Figures) : ¬ (f.whole = [] ∧ f.fraction = []) := by
  rintro ⟨hwhole, hfraction⟩
  cases f with
  | integer whole hne => exact hne hwhole
  | pointed whole hne fraction => exact hne hwhole
  | fractional fraction hne => exact hne hfraction

end Points

section Reading

variable {cs : List Char} {d : Decimal}

theorem Numeral.text_ne_nil (n : Numeral) : n.text ≠ [] := by
  intro h
  have hfigures : n.figures.text = [] := (List.append_eq_nil_iff.1 h).2
  obtain ⟨sign, f⟩ := n
  cases f with
  | integer whole hne => exact hne hfigures
  | pointed whole hne fraction => exact hne (List.append_eq_nil_iff.1 hfigures).1
  | fractional fraction hne => cases hfigures

theorem decimal?_text (n : Numeral) : decimal? n.text = some n.decimal := by
  unfold decimal? Numeral.text
  rw [splitSign_markText n.sign n.figures.head_text]
  dsimp only
  rw [splitPoint_text]
  dsimp only
  rw [if_neg n.figures.not_empty]
  simp [exponent?, Numeral.decimal]

theorem exponent?_of_no_letter (h : ∀ c ∈ cs, c ≠ 'e' ∧ c ≠ 'E') {e : Int}
    (he : exponent? cs = some e) : cs = [] ∧ e = 0 := by
  cases cs with
  | nil => exact ⟨rfl, (Option.some.inj he).symm⟩
  | cons c cs =>
    obtain ⟨hlower, hupper⟩ := h c List.mem_cons_self
    rw [exponent?, if_neg (not_or.2 ⟨hlower, hupper⟩)] at he
    cases he

theorem splitPoint_subset (cs : List Char) : (splitPoint cs).2.2 ⊆ cs := by
  have hdrop : cs.dropWhile Char.isDigit ⊆ cs := List.dropWhile_subset _
  by_cases hpoint : ∃ rest, cs.dropWhile Char.isDigit = '.' :: rest
  · obtain ⟨rest, hpoint⟩ := hpoint
    rw [splitPoint_of_point hpoint]
    rw [hpoint] at hdrop
    exact fun c hc => hdrop (List.mem_cons_of_mem _ (List.dropWhile_subset _ hc))
  · rw [splitPoint_of_no_point fun rest hrest => hpoint ⟨rest, hrest⟩]
    exact hdrop

/-- Only numerals are read from texts in which no exponent can start. -/
theorem exists_numeral (hletter : ∀ c ∈ cs, c ≠ 'e' ∧ c ≠ 'E') (h : decimal? cs = some d) :
    ∃ n : Numeral, n.text = cs ∧ n.decimal = d := by
  obtain ⟨sign, hcs, hnegative⟩ := exists_sign cs
  obtain ⟨⟨whole, fraction, rest⟩, hsplit⟩ : ∃ parts, splitPoint (splitSign cs).2 = parts :=
    ⟨_, rfl⟩
  have hsubset : rest ⊆ cs := by
    have hrest := splitPoint_subset (splitSign cs).2
    rw [hsplit] at hrest
    rw [← hcs]
    exact List.Subset.trans hrest (List.subset_append_right _ _)
  unfold decimal? at h
  dsimp only at h
  rw [hsplit] at h
  dsimp only at h
  by_cases hnone : whole = [] ∧ fraction = []
  · rw [if_pos hnone] at h
    cases h
  · rw [if_neg hnone] at h
    obtain ⟨e, he, rfl⟩ := Option.map_eq_some_iff.1 h
    obtain ⟨rfl, rfl⟩ := exponent?_of_no_letter (fun c hc => hletter c (hsubset hc)) he
    obtain ⟨f, htext, rfl, rfl⟩ := exists_figures hsplit hnone
    refine ⟨⟨sign, f⟩, ?_, ?_⟩
    · rw [Numeral.text, htext, hcs]
    · rw [Numeral.decimal, hnegative, Int.zero_sub]

end Reading

end Toolpath.Number
