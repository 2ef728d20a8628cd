import Mathlib.Order.Defs.Unbundled
import Toolpath.Proofs.Number.Order

/-!
# The ends of a list of numbers

The least and the greatest of some values, among which may be some that are not numbers. Such an
end depends on the values alone, not on their order or how often they come.
-/

namespace Toolpath.Number

/-- Equal as numbers, or both not a number. -/
def Same (a b : Float) : Prop := (a == b) = true ∨ a.isNaN = true ∧ b.isNaN = true

variable {a b m m' : Float}

theorem Same.isNaN_eq (h : Same a b) : a.isNaN = b.isNaN := by
  rcases h with h | ⟨ha, hb⟩
  · obtain ⟨ha, hb, -⟩ := beq_iff.1 h
    rw [ha, hb]
  · rw [ha, hb]

theorem Same.rank_eq (h : Same a b) (ha : a.isNaN = false) : rank a = rank b := by
  rcases h with h | ⟨ha', -⟩
  · exact (beq_iff.1 h).2.2
  · rw [ha] at ha'
    cases ha'

theorem Same.beq (h : Same a b) (ha : a.isNaN = false) : (a == b) = true :=
  h.resolve_right fun hnan => Bool.false_ne_true (ha.symm.trans hnan.1)

theorem Same.refl (a : Float) : Same a a := by
  cases ha : a.isNaN with
  | false => exact .inl (beq_self ha)
  | true => exact .inr ⟨ha, ha⟩

theorem Same.trans {c : Float} (hab : Same a b) (hbc : Same b c) : Same a c := by
  rcases hab with hab | ⟨ha, hb⟩
  · rcases hbc with hbc | ⟨hb, -⟩
    · exact .inl (beq_trans hab hbc)
    · rw [(beq_iff.1 hab).2.1] at hb
      cases hb
  · exact .inr ⟨ha, hbc.isNaN_eq ▸ hb⟩

/-- The first number under `r`, which is one of the orders of the ranks. It is not a number only if
no value of the list is one. -/
structure Extreme (r : Int → Int → Prop) (zs : List Float) (m : Float) : Prop where
  attained : ∃ z ∈ zs, Same z m
  bound : ∀ z ∈ zs, z.isNaN = false → m.isNaN = false ∧ r (rank m) (rank z)

variable {r : Int → Int → Prop} {zs ys : List Float}

theorem Extreme.of_subset (hm : Extreme r zs m) (hm' : Extreme r ys m') (h : zs ⊆ ys)
    (hnumber : m.isNaN = false) : m'.isNaN = false ∧ r (rank m') (rank m) := by
  obtain ⟨z, hz, hsame⟩ := hm.attained
  have hz' : z.isNaN = false := hsame.isNaN_eq.trans hnumber
  rw [← hsame.rank_eq hz']
  exact hm'.bound z (h hz) hz'

variable [IsPartialOrder Int r]

theorem Extreme.unique (hm : Extreme r zs m) (hm' : Extreme r ys m')
    (h : ∀ z, z ∈ zs ↔ z ∈ ys) : Same m m' := by
  cases hnumber : m.isNaN with
  | false =>
    obtain ⟨hnumber', hle⟩ := hm.of_subset hm' (fun z => (h z).1) hnumber
    obtain ⟨-, hge⟩ := hm'.of_subset hm (fun z => (h z).2) hnumber'
    exact .inl (beq_iff.2 ⟨hnumber, hnumber', antisymm_of r hge hle⟩)
  | true =>
    refine .inr ⟨hnumber, ?_⟩
    by_contra hnot
    have hback := hm'.of_subset hm (fun z => (h z).2) (by simpa only [Bool.not_eq_true] using hnot)
    rw [hback.1] at hnumber
    cases hnumber

theorem extreme_singleton (a : Float) : Extreme r [a] a where
  attained := ⟨a, by simp, .refl a⟩
  bound z hz hnumber := by
    obtain rfl := List.mem_singleton.1 hz
    exact ⟨hnumber, refl_of r _⟩

theorem Extreme.merge (hab : Extreme r [a, b] m) (hm : Extreme r (m :: zs) m') :
    Extreme r (a :: b :: zs) m' where
  attained := by
    obtain ⟨z, hz, hsame⟩ := hm.attained
    rcases List.mem_cons.1 hz with rfl | hz
    · obtain ⟨y, hy, hsame'⟩ := hab.attained
      exact ⟨y, by grind, hsame'.trans hsame⟩
    · exact ⟨z, by simp [hz], hsame⟩
  bound z hz hnumber := by
    have hstep : z ∈ [a, b] ∨ z ∈ zs := by grind
    rcases hstep with hz | hz
    · obtain ⟨hmn, hle⟩ := hab.bound z hz hnumber
      obtain ⟨hmn', hle'⟩ := hm.bound m (by simp) hmn
      exact ⟨hmn', trans_of r hle' hle⟩
    · exact hm.bound z (by simp [hz]) hnumber

theorem foldl_extreme {pick : Float → Float → Float}
    (hpick : ∀ a b, Extreme r [a, b] (pick a b)) (a : Float) (zs : List Float) :
    Extreme r (a :: zs) (zs.foldl pick a) := by
  induction zs generalizing a with
  | nil => exact extreme_singleton a
  | cons b zs ih => exact (hpick a b).merge (ih (pick a b))

theorem extreme_ite {c : Prop} [Decidable c] (hyes : c → b.isNaN = false ∧ r (rank b) (rank a))
    (hno : ¬ c → a.isNaN = false → b.isNaN = false → r (rank a) (rank b)) :
    Extreme r [a, b] (if a.isNaN ∨ c then b else a) := by
  by_cases h : a.isNaN ∨ c
  · rw [if_pos h]
    refine ⟨⟨b, by simp, .refl b⟩, fun z hz hnumber => ?_⟩
    rcases List.mem_pair.1 hz with rfl | rfl
    · exact hyes (h.resolve_left (by rw [hnumber]; exact Bool.false_ne_true))
    · exact ⟨hnumber, refl_of r _⟩
  · rw [if_neg h]
    rw [not_or, Bool.not_eq_true] at h
    refine ⟨⟨a, by simp, .refl a⟩, fun z hz hnumber => ?_⟩
    rcases List.mem_pair.1 hz with rfl | rfl
    · exact ⟨hnumber, refl_of r _⟩
    · exact ⟨h.1, hno h.2 h.1 hnumber⟩

theorem smaller_extreme (a b : Float) : Extreme (· ≤ ·) [a, b] (smaller a b) := by
  refine extreme_ite (fun h => ⟨(le_iff.1 h).1, (le_iff.1 h).2.2⟩) fun h ha hb => ?_
  exact (lt_iff.1 (lt_of_not_le hb ha h)).2.2.le

theorem larger_extreme (a b : Float) : Extreme (· ≥ ·) [a, b] (larger a b) := by
  refine extreme_ite (fun h => ⟨(le_iff.1 h).2.1, (le_iff.1 h).2.2⟩) fun h ha hb => ?_
  exact (lt_iff.1 (lt_of_not_le ha hb h)).2.2.le

end Toolpath.Number
