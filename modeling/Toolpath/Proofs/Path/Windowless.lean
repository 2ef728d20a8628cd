import Mathlib.Data.List.Induction
import Toolpath.Path.Simplification

/-!
# Simplification without a window

The same pass with no memory but what it has kept. A move that goes on the current run is compared
with the last two waypoints kept of that run. The window is their copy at every waypoint of a path.
-/

namespace Toolpath.Path

open Toolpath.Geometry (Point)

/-- What is kept of the current run of moves with one motion and of all that comes before it, both
last one first. There is no current run after a waypoint that is no move. -/
structure Trimmed where
  earlier : List Waypoint
  run : List Waypoint

/-- The way from `a` to `w` through `b` is computed to be longer than the direct one by less than
the tolerance. -/
def Needless (tolerance : Float) (a b w : Waypoint) : Prop :=
  b.point.distance a.point + w.point.distance b.point - w.point.distance a.point < tolerance

instance (tolerance : Float) (a b w : Waypoint) : Decidable (Needless tolerance a b w) :=
  inferInstanceAs (Decidable (_ < _))

/-- A waypoint takes the place of a needless one before it, if two of its run are kept. -/
def keepNext (tolerance : Float) (w : Waypoint) : List Waypoint → List Waypoint
  | b :: a :: run =>
    if Needless tolerance a b w then w :: a :: run else w :: b :: a :: run
  | run => w :: run

namespace Trimmed

def initial : Trimmed := ⟨[], []⟩

def kept (t : Trimmed) : List Waypoint := t.run ++ t.earlier

def step (tolerance : Float) (t : Trimmed) (w : Waypoint) : Trimmed :=
  if w.motion.travels then
    if t.run.head?.map (·.motion) = some w.motion then
      { t with run := keepNext tolerance w t.run }
    else { earlier := t.kept, run := [w] }
  else { earlier := w :: t.kept, run := [] }

end Trimmed

def trim (tolerance : Float) (p : Path) : Trimmed := p.foldl (Trimmed.step tolerance) .initial

theorem head?_keepNext (tolerance : Float) (w : Waypoint) (run : List Waypoint) :
    (keepNext tolerance w run).head? = some w := by
  match run with
  | [] | [_] => rfl
  | b :: a :: run =>
    rw [keepNext]
    split <;> rfl

namespace Window

/-- The points that the next one is compared with, last one first. -/
def references : Window → List Point
  | .empty => []
  | .one a => [a]
  | .two a b | .three _ a b => [b, a]

variable {window : Window} {a b : Point}

theorem eq_empty_of_references (h : window.references = []) : window = .empty := by
  cases window with
  | empty => rfl
  | _ => cases h

theorem eq_one_of_references (h : window.references = [a]) : window = .one a := by
  cases window with
  | one b =>
    obtain rfl := List.singleton_inj.1 h
    rfl
  | _ => cases h

theorem slide_of_references (h : window.references = [b, a]) (p : Point) :
    window.slide p = .three a b p := by
  cases window with
  | two c d | three _ c d =>
    obtain ⟨rfl, rfl⟩ : d = b ∧ c = a := by simpa [references] using h
    rfl
  | _ => cases h

end Window

/-- The window copies the newest waypoints kept of the current run. -/
structure Mirrors (s : Simplification) (t : Trimmed) : Prop where
  kept : s.kept = t.kept
  references : s.window.references = (t.run.take 2).map (·.point)
  motion : ∀ v ∈ t.run.head?, s.run = some v.motion

namespace Mirrors

variable {tolerance : Float} {s : Simplification} {t : Trimmed} {w : Waypoint}

theorem pause (h : Mirrors s t) (hw : w.motion.travels = false) :
    Mirrors (s.step tolerance w) (t.step tolerance w) := by
  have hstop : ¬ w.motion.travels = true := by simp [hw]
  rw [Simplification.step, if_neg hstop, Trimmed.step, if_neg hstop]
  exact ⟨congrArg (w :: ·) h.kept, rfl, fun v hv => by cases hv⟩

theorem begin_run (h : Mirrors s t) (hw : w.motion.travels = true)
    (hnew : t.run.head?.map (·.motion) ≠ some w.motion) :
    Mirrors (s.step tolerance w) (t.step tolerance w) := by
  have hempty : s.windowFor w.motion = .empty := by
    unfold Simplification.windowFor
    split
    · rename_i hrun
      refine Window.eq_empty_of_references ?_
      cases hkept : t.run with
      | nil => rw [h.references, hkept]; rfl
      | cons v run =>
        have hv : v ∈ t.run.head? := by rw [hkept]; rfl
        rw [h.motion v hv] at hrun
        exact absurd (by rw [hkept]; exact hrun) hnew
    · rfl
  have hs : s.step tolerance w = ⟨some w.motion, .one w.point, w :: s.kept⟩ := by
    rw [Simplification.step, if_pos hw, hempty]
    rfl
  have ht : t.step tolerance w = ⟨t.kept, [w]⟩ := by
    rw [Trimmed.step, if_pos hw, if_neg hnew]
  rw [hs, ht]
  exact ⟨congrArg (w :: ·) h.kept, rfl, fun v hv => by cases hv; rfl⟩

theorem go_on (h : Mirrors s t) (hw : w.motion.travels = true)
    (hsame : t.run.head?.map (·.motion) = some w.motion) :
    Mirrors (s.step tolerance w) (t.step tolerance w) := by
  obtain ⟨earlier, run⟩ := t
  obtain ⟨b, rest, rfl⟩ : ∃ b rest, run = b :: rest := by
    cases run with
    | nil => cases hsame
    | cons b rest => exact ⟨b, rest, rfl⟩
  obtain ⟨hkept, hreferences, hmotion⟩ := h
  have hwindow : s.windowFor w.motion = s.window := by
    have hb : b.motion = w.motion := Option.some.inj hsame
    exact if_pos (hb ▸ hmotion b rfl)
  rw [Trimmed.step, if_pos hw, if_pos hsame, Simplification.step, if_pos hw, hwindow]
  cases rest with
  | nil =>
    rw [Window.eq_one_of_references hreferences]
    exact ⟨congrArg (w :: ·) hkept, rfl, fun v hv => by cases hv; rfl⟩
  | cons a rest =>
    rw [Window.slide_of_references hreferences]
    dsimp only [keepNext]
    by_cases hneedless : Needless tolerance a b w
    · have hredundant : (Window.three a.point b.point w.point).redundant tolerance = true :=
        decide_eq_true hneedless
      rw [if_pos hredundant, if_pos hneedless, hkept]
      exact ⟨rfl, rfl, fun v hv => by cases hv; rfl⟩
    · have hredundant : ¬ (Window.three a.point b.point w.point).redundant tolerance = true :=
        fun h => hneedless (of_decide_eq_true h)
      rw [if_neg hredundant, if_neg hneedless, hkept]
      exact ⟨rfl, rfl, fun v hv => by cases hv; rfl⟩

theorem step (h : Mirrors s t) (w : Waypoint) :
    Mirrors (s.step tolerance w) (t.step tolerance w) := by
  by_cases hw : w.motion.travels = true
  · by_cases hsame : t.run.head?.map (·.motion) = some w.motion
    · exact h.go_on hw hsame
    · exact h.begin_run hw hsame
  · exact h.pause (Bool.eq_false_iff.2 hw)

end Mirrors

theorem foldl_mirrors (tolerance : Float) (p : Path) :
    Mirrors (p.foldl (Simplification.step tolerance) .initial) (trim tolerance p) := by
  induction p using List.reverseRecOn with
  | nil => exact ⟨rfl, rfl, fun v hv => by cases hv⟩
  | append_singleton p w ih =>
    unfold trim at ih ⊢
    rw [List.foldl_append, List.foldl_append]
    exact ih.step w

theorem simplify_eq_trim (tolerance : Float) (p : Path) :
    simplify tolerance p = (trim tolerance p).kept.reverse := by
  rw [simplify, (foldl_mirrors tolerance p).kept]

/-- The pass keeps the same waypoints with the window as without it, and having come to the end of
any path the window refers to the last ones kept of the current run. -/
theorem simplify_mirrors_trim (tolerance : Float) (p : Path) :
    simplify tolerance p = (trim tolerance p).kept.reverse ∧
      (p.foldl (Simplification.step tolerance) .initial).window.references =
        ((trim tolerance p).run.take 2).map (·.point) :=
  ⟨simplify_eq_trim tolerance p, (foldl_mirrors tolerance p).references⟩

end Toolpath.Path
