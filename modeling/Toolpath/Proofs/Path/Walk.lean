import Mathlib.Data.List.Forall2
import Toolpath.Path.Walk

/-!
# Walks and their memories

What a walk writes depends on its memory alone. Two walks whose memories stay related write the
same, and a walk that remembers everything sees each item with all that came before it.
-/

namespace Toolpath.Path

variable {σ τ α β γ δ : Type}

/-- What a walk remembers at the end. -/
def memory (step : σ → α → σ × List β) (s : σ) (as : List α) : σ :=
  as.foldl (fun s a => (step s a).1) s

@[simp] theorem memory_nil (step : σ → α → σ × List β) (s : σ) : memory step s [] = s := rfl

@[simp] theorem memory_cons (step : σ → α → σ × List β) (s : σ) (a : α) (as : List α) :
    memory step s (a :: as) = memory step (step s a).1 as := rfl

theorem walk_append (step : σ → α → σ × List β) (s : σ) (as bs : List α) :
    walk step s (as ++ bs) = walk step s as ++ walk step (memory step s as) bs := by
  induction as generalizing s with
  | nil => rfl
  | cons a as ih => simp [ih]

/-- Two walks over changed items write changed results if each step does, from related memories. -/
theorem walk_map {f : σ → α → σ × List β} {g : τ → γ → τ × List δ} {R : σ → τ → Prop} {h : α → γ}
    {k : β → δ}
    (hstep : ∀ s t a, R s t → (g t (h a)).2 = (f s a).2.map k ∧ R (f s a).1 (g t (h a)).1)
    {s : σ} {t : τ} (hst : R s t) (as : List α) : walk g t (as.map h) = (walk f s as).map k := by
  induction as generalizing s t with
  | nil => rfl
  | cons a as ih =>
    obtain ⟨hout, hnext⟩ := hstep s t a hst
    rw [List.map_cons, walk_cons, walk_cons, List.map_append, hout, ih hnext]

theorem walk_eq_of_related {f : σ → α → σ × List β} {g : τ → α → τ × List β} {R : σ → τ → Prop}
    (hstep : ∀ s t a, R s t → (f s a).2 = (g t a).2 ∧ R (f s a).1 (g t a).1)
    {s : σ} {t : τ} (h : R s t) (as : List α) : walk f s as = walk g t as := by
  have hsame : ∀ s t a, R s t → (g t (id a)).2 = (f s a).2.map id ∧ R (f s a).1 (g t (id a)).1 := by
    intro s t a hst
    obtain ⟨hout, hnext⟩ := hstep s t a hst
    exact ⟨by rw [List.map_id, hout, id], hnext⟩
  simpa using (walk_map hsame h as).symm

theorem forall_mem_walk {f : σ → α → σ × List β} {P : α → Prop} {Q : β → Prop}
    (hstep : ∀ s a, P a → ∀ b ∈ (f s a).2, Q b) {as : List α} (h : ∀ a ∈ as, P a) (s : σ) :
    ∀ b ∈ walk f s as, Q b := by
  induction as generalizing s with
  | nil => simp
  | cons a as ih =>
    intro b hb
    rw [walk_cons, List.mem_append] at hb
    rcases hb with hb | hb
    · exact hstep s a (h a (by simp)) b hb
    · exact ih (fun x hx => h x (by simp [hx])) _ b hb

theorem forall₂_walk {f : σ → α → σ × List β} {R : α → β → Prop}
    (hstep : ∀ s a, ∃ b, (f s a).2 = [b] ∧ R a b) (s : σ) (as : List α) :
    List.Forall₂ R as (walk f s as) := by
  induction as generalizing s with
  | nil => exact .nil
  | cons a as ih =>
    obtain ⟨b, hout, hb⟩ := hstep s a
    rw [walk_cons, hout]
    exact .cons hb (ih _)

/-- A second walk changes nothing if it changes nothing in what a first step writes. -/
theorem walk_walk_of_related {f : σ → α → σ × List α} {R : σ → σ → Prop}
    (hstep : ∀ s t a, R s t →
      walk f t (f s a).2 = (f s a).2 ∧ R (f s a).1 (memory f t (f s a).2))
    {s t : σ} (h : R s t) (as : List α) : walk f t (walk f s as) = walk f s as := by
  induction as generalizing s t with
  | nil => rfl
  | cons a as ih =>
    obtain ⟨hout, hnext⟩ := hstep s t a h
    rw [walk_cons, walk_append, hout, ih hnext]

/-- Two walks may change places if they may at each item: they write the same in either order, and
neither remembers anything of what the other has changed. -/
theorem walk_walk_comm {f : σ → α → σ × List α} {g : τ → α → τ × List α} {R : σ → τ → Prop}
    (hwritten : ∀ s t a, R s t → walk g t (f s a).2 = walk f s (g t a).2)
    (hmemory : ∀ s t a, R s t → memory f s (g t a).2 = (f s a).1 ∧
      memory g t (f s a).2 = (g t a).1 ∧ R (f s a).1 (g t a).1)
    {s : σ} {t : τ} (h : R s t) (as : List α) :
    walk g t (walk f s as) = walk f s (walk g t as) := by
  induction as generalizing s t with
  | nil => rfl
  | cons a as ih =>
    obtain ⟨hf, hg, hnext⟩ := hmemory s t a h
    rw [walk_cons, walk_cons, walk_append, walk_append, hwritten s t a h, hf, hg, ih hnext]

def historiesAfter (before : List α) : List α → List (List α × α)
  | [] => []
  | a :: as => (before, a) :: historiesAfter (before ++ [a]) as

/-- Each item with all that comes before it. -/
def histories (as : List α) : List (List α × α) := historiesAfter [] as

theorem historiesAfter_concat (before as : List α) (a : α) :
    historiesAfter before (as ++ [a]) = historiesAfter before as ++ [(before ++ as, a)] := by
  induction as generalizing before with
  | nil => simp [historiesAfter]
  | cons b as ih => simp [historiesAfter, ih]

@[simp] theorem histories_nil : histories ([] : List α) = [] := rfl

@[simp] theorem histories_concat (as : List α) (a : α) :
    histories (as ++ [a]) = histories as ++ [(as, a)] := historiesAfter_concat [] as a

theorem walk_histories (f : List α → α → List β) (before as : List α) :
    walk (fun before a => (before ++ [a], f before a)) before as =
      (historiesAfter before as).flatMap fun h => f h.1 h.2 := by
  induction as generalizing before with
  | nil => rfl
  | cons a as ih => simp [historiesAfter, ih]

theorem mem_historiesAfter {before as b : List α} {a : α} :
    (b, a) ∈ historiesAfter before as ↔ ∃ c after, as = c ++ a :: after ∧ b = before ++ c := by
  induction as generalizing before with
  | nil => simp [historiesAfter]
  | cons x as ih =>
    simp only [historiesAfter, List.mem_cons, Prod.mk.injEq, ih]
    constructor
    · rintro (⟨rfl, rfl⟩ | ⟨c, after, rfl, rfl⟩)
      · exact ⟨[], as, rfl, by simp⟩
      · exact ⟨x :: c, after, rfl, by simp⟩
    · rintro ⟨c, after, hsplit, rfl⟩
      cases c with
      | nil =>
        obtain ⟨rfl, -⟩ := List.cons.inj hsplit
        exact .inl ⟨by simp, rfl⟩
      | cons y c =>
        obtain ⟨rfl, htail⟩ := List.cons.inj hsplit
        exact .inr ⟨c, after, htail, by simp⟩

theorem mem_histories {as before : List α} {a : α} :
    (before, a) ∈ histories as ↔ ∃ after, as = before ++ a :: after := by
  unfold histories
  rw [mem_historiesAfter]
  simp

end Toolpath.Path
