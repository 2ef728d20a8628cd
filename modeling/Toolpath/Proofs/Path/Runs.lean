import Mathlib.Data.List.Infix
import Toolpath.Path.Waypoint

/-!
# Runs below Z0

The maximal stretches of consecutive waypoints below Z0. They lie between the other waypoints.
-/

namespace Toolpath.Path

def Waypoint.below (w : Waypoint) : Bool := w.point.z < 0

def runs (p : Path) : List (List Waypoint) := (p.splitOnP (!·.below)).filter (!·.isEmpty)

@[simp] theorem runs_nil : runs [] = [] := rfl

theorem splitOnP_append_cons_of_not_below {w : Waypoint} (h : w.below = false) (p q : Path) :
    (p ++ w :: q).splitOnP (!·.below) = p.splitOnP (!·.below) ++ q.splitOnP (!·.below) :=
  List.splitOnP_append_cons p q (by simp [h])

theorem runs_cons_of_not_below {w : Waypoint} (h : w.below = false) (p : Path) :
    runs (w :: p) = runs p := by
  have hs := splitOnP_append_cons_of_not_below h [] p
  simp only [List.nil_append, List.splitOnP_nil] at hs
  simp [runs, hs]

theorem runs_concat_of_not_below {w : Waypoint} (h : w.below = false) (p : Path) :
    runs (p ++ [w]) = runs p := by
  have hs := splitOnP_append_cons_of_not_below h p []
  simp only [List.splitOnP_nil] at hs
  simp [runs, hs]

theorem runs_eq_singleton {q : List Waypoint} (hne : q ≠ []) (hq : ∀ w ∈ q, w.below = true) :
    runs q = [q] := by
  unfold runs
  rw [List.splitOnP_eq_singleton (by simpa using hq)]
  simp [hne]

/-- A stretch that the rest of the path does not continue is a run of its own. -/
theorem runs_append {q rest : List Waypoint} (hne : q ≠ []) (hq : ∀ w ∈ q, w.below = true)
    (hr : ∀ w ∈ rest.head?, w.below = false) : runs (q ++ rest) = q :: runs rest := by
  cases rest with
  | nil => simpa using runs_eq_singleton hne hq
  | cons w rest =>
    have hw : w.below = false := hr w rfl
    have hs : (q ++ w :: rest).splitOnP (!·.below) = q :: rest.splitOnP (!·.below) :=
      List.splitOnP_append_cons_of_forall_mem (by simpa using hq) w (by simp [hw]) rest
    rw [runs_cons_of_not_below hw, runs, hs, runs, List.filter_cons_of_pos (by simp [hne])]

theorem append_runs {p q : List Waypoint} (hp : ∀ w ∈ p.getLast?, w.below = false)
    (hne : q ≠ []) (hq : ∀ w ∈ q, w.below = true) : runs (p ++ q) = runs p ++ [q] := by
  rcases List.eq_nil_or_concat p with rfl | ⟨p, w, rfl⟩
  · simpa using runs_eq_singleton hne hq
  · have hw : w.below = false := hp w (by simp)
    have hs := splitOnP_append_cons_of_not_below hw p q
    have hrun := runs_eq_singleton hne hq
    rw [List.concat_eq_append, runs_concat_of_not_below hw, List.append_assoc,
      List.singleton_append]
    unfold runs at hrun ⊢
    rw [hs, List.filter_append, hrun]

theorem exists_first_run {w : Waypoint} (hw : w.below = true) (p : Path) :
    ∃ q rest, w :: p = q ++ rest ∧ q ≠ [] ∧ (∀ v ∈ q, v.below = true) ∧
      ∀ v ∈ rest.head?, v.below = false := by
  refine ⟨(w :: p).takeWhile (·.below), (w :: p).dropWhile (·.below),
    List.takeWhile_append_dropWhile.symm, by simp [hw], List.all_eq_true.1 List.all_takeWhile, ?_⟩
  intro v hv
  have hnot := List.head?_dropWhile_not (·.below) (w :: p)
  rw [Option.mem_def.1 hv] at hnot
  simpa using hnot

/-- A run is a stretch of its path. The runs before it are the waypoints below Z0 before it, and the
waypoint right before it is not below Z0. -/
theorem runs_split {p : Path} {before after : List (List Waypoint)} {r : List Waypoint}
    (h : runs p = before ++ r :: after) :
    ∃ a b, p = a ++ r ++ b ∧ a.filter (·.below) = before.flatten ∧ r ≠ [] ∧
      (∀ w ∈ r, w.below = true) ∧ ∀ w ∈ a.getLast?, w.below = false := by
  induction hn : p.length using Nat.strong_induction_on generalizing p before with
  | h n ih =>
    cases p with
    | nil => simp at h
    | cons w p =>
      cases hw : w.below with
      | false =>
        rw [runs_cons_of_not_below hw] at h
        obtain ⟨a, b, rfl, hf, hne, hr, ha⟩ := ih p.length (by simp [← hn]) h rfl
        refine ⟨w :: a, b, rfl, by simp [hw, hf], hne, hr, ?_⟩
        cases a with
        | nil => simpa using hw
        | cons v a => simpa using ha
      | true =>
        obtain ⟨q, rest, hp, hq, hdeep, hrest⟩ := exists_first_run hw p
        rw [hp] at hn ⊢
        rw [hp, runs_append hq hdeep hrest] at h
        cases before with
        | nil =>
          obtain ⟨rfl, -⟩ := List.cons.inj h
          exact ⟨[], rest, rfl, rfl, hq, hdeep, by simp⟩
        | cons q' before =>
          obtain ⟨rfl, h'⟩ := List.cons.inj h
          have hlen : rest.length < n := by
            have hpos := List.length_pos_of_ne_nil hq
            rw [List.length_append] at hn
            omega
          obtain ⟨a, b, rfl, hf, hne, hr, ha⟩ := ih _ hlen h' rfl
          -- the rest starts above, so the run cannot be at its start
          have hane : a ≠ [] := by
            rintro rfl
            obtain ⟨v, r, rfl⟩ := List.exists_cons_of_ne_nil hne
            have hup := hrest v (by simp)
            rw [hr v (by simp)] at hup
            cases hup
          refine ⟨q ++ a, b, by simp, ?_, hne, hr, ?_⟩
          · rw [List.filter_append, List.filter_eq_self.2 hdeep, hf]
            rfl
          · rwa [List.getLast?_append_of_ne_nil _ hane]

end Toolpath.Path
