/-!
# Walking along a list with a memory

A walk goes along a list, remembers something about what it has seen, and writes some items
for each one.
-/

namespace Toolpath.Path

variable {σ α β : Type}

def walkOnto (step : σ → α → σ × List β) (s : σ) (done : Array β) : List α → Array β
  | [] => done
  | a :: as => walkOnto step (step s a).1 (done ++ (step s a).2) as

def walk (step : σ → α → σ × List β) (s : σ) (as : List α) : List β :=
  (walkOnto step s #[] as).toList

theorem walkOnto_toList (step : σ → α → σ × List β) (as : List α) (s : σ) (done : Array β) :
    (walkOnto step s done as).toList = done.toList ++ walk step s as := by
  unfold walk
  induction as generalizing s done with
  | nil => simp [walkOnto]
  | cons a as ih =>
    simp only [walkOnto]
    rw [ih, ih (step s a).1 (#[] ++ (step s a).2)]
    simp

@[simp] theorem walk_nil (step : σ → α → σ × List β) (s : σ) : walk step s [] = [] := rfl

@[simp] theorem walk_cons (step : σ → α → σ × List β) (s : σ) (a : α) (as : List α) :
    walk step s (a :: as) = (step s a).2 ++ walk step (step s a).1 as := by
  unfold walk
  simp only [walkOnto]
  rw [walkOnto_toList]
  simp [walk]

end Toolpath.Path
