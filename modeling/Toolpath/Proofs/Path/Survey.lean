import Mathlib.Data.List.Chain
import Mathlib.Data.List.Induction
import Toolpath.Path.Routing
import Toolpath.Proofs.Path.Runs
import Toolpath.Proofs.Path.SafetyPlane

/-!
# What a survey finds

An accepted path moves straight or level at every step and never sideways at rapid speed below Z0.
Its groups are the runs below Z0 in order, and its safety height is the highest level.
-/

namespace Toolpath.Path

open Toolpath.Geometry (Point)
open Number (rank lt_iff le_iff beq_iff larger)

/-- A step that a survey accepts. -/
structure Admissible (a b : Waypoint) : Prop where
  straight : (b.point.z == a.point.z) = true ∨ b.point.sameXY a.point = true
  cutting : b.below = true → b.motion = .rapid → b.point.sameXY a.point = true

theorem isChain_concat_iff {p : Path} {w : Waypoint} :
    (Waypoint.initial :: (p ++ [w])).IsChain Admissible ↔
      (Waypoint.initial :: p).IsChain Admissible ∧ Admissible (p.getLastD .initial) w := by
  rw [← List.cons_append, List.isChain_append]
  simp only [List.isChain_singleton, true_and, List.head?_cons, Option.mem_def,
    Option.some.injEq, forall_eq', List.getLast?_cons, ← List.getLastD_eq_getLast?]

namespace Scan

def cut (s : Scan) : List Waypoint :=
  match s.current with
  | some g => g.entry :: g.rest.reverse
  | none => []

def done (s : Scan) : List (List Waypoint) := s.closed.reverse.map Group.toList

structure Invariant (seen : Path) (s : Scan) : Prop where
  last : s.last = (seen.getLastD .initial).point
  number : s.last.hasNaN = false
  steps : (Waypoint.initial :: seen).IsChain Admissible
  split : ∃ above, seen = above ++ s.cut ∧ s.done = runs above ∧
    ∀ w ∈ above.getLast?, w.below = false
  deep : ∀ w ∈ s.cut, w.below = true
  height : s.height = safetyHeight seen
  fed : (s.feedrate == 0) = true ∨ s.cut ≠ [] ∨ s.done ≠ []

theorem initial_invariant : Invariant [] initial where
  last := rfl
  number := by decide
  steps := List.isChain_singleton _
  split := ⟨[], rfl, rfl, by simp⟩
  deep := by simp [cut, initial]
  height := rfl
  fed := .inl (by decide)

/-- The tool is below Z0 exactly while a group is open. -/
theorem Invariant.below_iff {seen : Path} {s : Scan} (h : Invariant seen s) :
    s.last.z < 0 ↔ s.cut ≠ [] := by
  obtain ⟨above, hseen, -, habove⟩ := h.split
  have hlast := h.last
  rcases List.eq_nil_or_concat s.cut with hc | ⟨cut, w, hc⟩
  · rw [hc, List.append_nil] at hseen
    subst hseen
    rcases List.eq_nil_or_concat seen with rfl | ⟨seen, w, rfl⟩
    · simp only [hc, ne_eq, not_true_eq_false, iff_false, hlast]
      decide
    · have hw : w.below = false := habove w (by simp)
      simp only [List.concat_eq_append, List.getLastD_concat] at hlast
      simpa [hc, hlast, Waypoint.below] using hw
  · have hw : w.below = true := h.deep w (by simp [hc])
    rw [hc] at hseen
    simp only [hseen, List.concat_eq_append, ← List.append_assoc, List.getLastD_concat] at hlast
    simpa [hc, hlast, Waypoint.below] using hw

theorem noteFeedrate_eq {s t : Scan} {w : Waypoint} (h : s.noteFeedrate w = .ok t) :
    ∃ feedrate, t = { s with feedrate } := by
  simp only [noteFeedrate] at h
  split at h
  · split at h
    · cases h
      exact ⟨_, rfl⟩
    · split at h
      · cases h
        exact ⟨_, rfl⟩
      · cases h
  · cases h
    exact ⟨_, rfl⟩

theorem cut_eq_nil {s : Scan} : s.cut = [] ↔ s.current = none := by
  unfold cut
  split <;> simp_all

theorem enter_effect {s t : Scan} {index : Nat} {w : Waypoint} (hc : s.cut = [])
    (h : s.enter index w = .ok t) :
    t.last = w.point ∧ t.height = larger s.height w.point.z ∧ t.cut = [w] ∧ t.done = s.done := by
  unfold enter at h
  cases hn : s.noteFeedrate w with
  | error e => simp [hn, bind, Except.bind] at h
  | ok u =>
    obtain ⟨feedrate, rfl⟩ := noteFeedrate_eq hn
    simp only [hn, bind, Except.bind, cut_eq_nil.1 hc] at h
    cases h
    simp [advance, cut, done]

theorem extend_effect {s t : Scan} {index : Nat} {w : Waypoint} (h : s.extend index w = .ok t) :
    t.last = w.point ∧ t.height = larger s.height w.point.z ∧ t.done = s.done ∧
      t.feedrate = s.feedrate ∧ t.cut = if s.cut = [] then [] else s.cut ++ [w] := by
  unfold extend at h
  split at h
  · rename_i hc
    cases h
    simp [advance, cut, done, hc]
  · rename_i g hc
    split at h
    · cases h
    · cases h
      simp [advance, cut, done, hc]

theorem leave_effect (s : Scan) (w : Waypoint) :
    (s.leave w).last = w.point ∧ (s.leave w).height = larger s.height w.point.z ∧
      (s.leave w).cut = [] ∧ (s.leave w).feedrate = s.feedrate ∧
      (s.leave w).done = s.done ++ if s.cut = [] then [] else [s.cut] := by
  cases hc : s.current <;> simp [leave, advance, cut, done, hc, Group.toList]

theorem Invariant.below_iff_of_stays {seen : Path} {s : Scan} (hi : Invariant seen s) {w : Waypoint}
    (hw : w.point.hasNaN = false)
    (hstraight : (w.point.z == s.last.z) = true ∨ w.point.sameXY s.last = true)
    (henter : ¬ (w.point.sameXY s.last = true ∧ 0 ≤ s.last.z ∧ w.point.z < 0))
    (hleave : ¬ (w.point.sameXY s.last = true ∧ s.last.z < 0 ∧ 0 ≤ w.point.z)) :
    w.below = true ↔ s.cut ≠ [] := by
  have hz := (Point.hasNaN_eq_false.1 hw).2.2
  have hl := (Point.hasNaN_eq_false.1 hi.number).2.2
  have hb : w.below = true ↔ w.point.z < 0 := by simp [Waypoint.below]
  rw [hb, ← hi.below_iff]
  simp only [lt_iff, le_iff, beq_iff, hz, hl, Number.isNaN_zero, Number.rank_zero,
    true_and] at henter hleave hstraight ⊢
  rcases hstraight with hlevel | hxy
  · omega
  · simp only [hxy, true_and] at henter hleave
    omega

/-- What a step does to an accepted path: a waypoint below Z0 joins the open group, any other
closes it. -/
theorem step_effect {seen : Path} {s t : Scan} {index : Nat} {w : Waypoint} (hi : Invariant seen s)
    (hw : w.point.hasNaN = false) (h : s.step index w = .ok t) :
    Admissible (seen.getLastD .initial) w ∧ t.last = w.point ∧
      t.height = larger s.height w.point.z ∧
      (w.below = true → t.cut = s.cut ++ [w] ∧ t.done = s.done) ∧
      (w.below = false → t.cut = [] ∧ t.done = s.done ++ (if s.cut = [] then [] else [s.cut]) ∧
        t.feedrate = s.feedrate) := by
  have hz := (Point.hasNaN_eq_false.1 hw).2.2
  have hl := (Point.hasNaN_eq_false.1 hi.number).2.2
  have hb : w.below = true ↔ w.point.z < 0 := by simp [Waypoint.below]
  simp only [step] at h
  split at h
  · cases h
  rename_i hstraight
  have hstraight : (w.point.z == s.last.z) = true ∨ w.point.sameXY s.last = true := by
    simpa [or_iff_not_imp_left] using hstraight
  split at h
  · rename_i henter
    obtain ⟨hxy, hlast, hdeep⟩ := henter
    have hc : s.cut = [] := by
      by_contra hc
      have := hi.below_iff.2 hc
      simp only [lt_iff, le_iff, hl, Number.rank_zero] at this hlast
      omega
    obtain ⟨h1, h2, h3, h4⟩ := enter_effect hc h
    refine ⟨⟨hi.last ▸ hstraight, fun _ _ => hi.last ▸ hxy⟩, h1, h2, fun _ => by simp [h3, h4, hc],
      fun hup => ?_⟩
    simp [hb.2 hdeep] at hup
  split at h
  · rename_i _ hleave
    obtain ⟨hxy, hlast, hup⟩ := hleave
    cases h
    obtain ⟨h1, h2, h3, h4, h5⟩ := leave_effect s w
    refine ⟨⟨hi.last ▸ hstraight, fun _ _ => hi.last ▸ hxy⟩, h1, h2, fun hdeep => ?_,
      fun _ => ⟨h3, h5, h4⟩⟩
    have := hb.1 hdeep
    simp only [lt_iff, le_iff, hz, Number.rank_zero] at this hup
    omega
  split at h
  · cases h
  rename_i henter hleave hrapid
  obtain ⟨h1, h2, h3, h4, h5⟩ := extend_effect h
  have hsame := hi.below_iff_of_stays hw hstraight henter hleave
  refine ⟨⟨hi.last ▸ hstraight, ?_⟩, h1, h2, ?_, ?_⟩
  · intro hdeep hm
    rw [← hi.last]
    simpa [hb.1 hdeep, hm] using hrapid
  · intro hdeep
    simp [h3, h5, hsame.1 hdeep]
  · intro hup
    have hc : s.cut = [] := by simpa [hup] using hsame
    simp [h3, h4, h5, hc]

theorem step_preserves_invariant {seen : Path} {s t : Scan} {index : Nat} {w : Waypoint}
    (hi : Invariant seen s) (hw : w.point.hasNaN = false) (h : s.step index w = .ok t) :
    Invariant (seen ++ [w]) t := by
  obtain ⟨hstep, hlast, hheight, hin, hout⟩ := step_effect hi hw h
  obtain ⟨above, hseen, hdone, habove⟩ := hi.split
  have hsteps : (Waypoint.initial :: (seen ++ [w])).IsChain Admissible :=
    isChain_concat_iff.2 ⟨hi.steps, hstep⟩
  cases hb : w.below with
  | true =>
    obtain ⟨hcut, hdone'⟩ := hin hb
    exact {
      last := by simp [hlast]
      number := hlast ▸ hw
      steps := hsteps
      split := ⟨above, by simp [hcut, hseen], by rw [hdone', hdone], habove⟩
      deep := by
        intro v hv
        rcases List.mem_append.1 (hcut ▸ hv) with hv | hv
        · exact hi.deep v hv
        · rwa [List.mem_singleton.1 hv]
      height := by rw [hheight, hi.height, safetyHeight_concat]
      fed := .inr (.inl (by simp [hcut])) }
  | false =>
    obtain ⟨hcut, hdone', hfeed⟩ := hout hb
    have hruns : t.done = runs (seen ++ [w]) := by
      rw [hdone', runs_concat_of_not_below hb, hseen, hdone]
      split
      · rename_i hc
        simp [hc]
      · rename_i hc
        rw [append_runs habove hc hi.deep]
    exact {
      last := by simp [hlast]
      number := hlast ▸ hw
      steps := hsteps
      split := ⟨seen ++ [w], by simp [hcut], hruns, by simp [hb]⟩
      deep := by simp [hcut]
      height := by rw [hheight, hi.height, safetyHeight_concat]
      fed := by
        rcases hi.fed with hf | hc | hd
        · exact .inl (hfeed ▸ hf)
        · exact .inr (.inr (by simp [hdone', hc]))
        · exact .inr (.inr (by simp [hdone', hd])) }

theorem run_preserves_invariant {p seen : Path} {s t : Scan} {index : Nat} (hi : Invariant seen s)
    (hp : NaNFree p)
    (h : (p.zipIdx index).foldlM (fun s (w, index) => s.step index w) s = .ok t) :
    Invariant (seen ++ p) t := by
  induction p generalizing seen s index with
  | nil =>
    cases h
    simpa using hi
  | cons w p ih =>
    rw [List.zipIdx_cons, List.foldlM_cons] at h
    cases hs : s.step index w with
    | error e => simp [hs, bind, Except.bind] at h
    | ok u =>
      simp only [hs, bind, Except.bind] at h
      have hu := step_preserves_invariant hi (hp w (by simp)) hs
      simpa using ih hu (fun v hv => hp v (by simp [hv])) h

end Scan

structure Surveyed (p : Path) (s : Survey) : Prop where
  steps : (Waypoint.initial :: p).IsChain Admissible
  groups : s.groups.map Group.toList = runs p
  nonempty : s.groups ≠ []
  height : s.safetyHeight = safetyHeight p
  positive : 0 < safetyHeight p

theorem survey_spec {p : Path} {s : Survey} (hp : NaNFree p) (h : survey p = .ok s) :
    Surveyed p s := by
  unfold survey at h
  cases hf : p.zipIdx.foldlM (fun s (w, index) => s.step index w) Scan.initial with
  | error e => simp [hf, bind, Except.bind] at h
  | ok t =>
    have hi := Scan.run_preserves_invariant Scan.initial_invariant hp hf
    rw [List.nil_append] at hi
    simp only [hf, bind, Except.bind, Scan.finish] at h
    split at h
    · cases h
    rename_i hheight
    split at h
    · cases h
    rename_i hfeed
    split at h
    · cases h
    rename_i hopen
    cases h
    have hcut : t.cut = [] := by simpa [Scan.cut_eq_nil] using hopen
    obtain ⟨above, hseen, hdone, -⟩ := hi.split
    rw [hcut, List.append_nil] at hseen
    subst hseen
    have hnan := isNaN_safetyHeight p
    refine ⟨hi.steps, hdone, ?_, hi.height, ?_⟩
    · intro hnil
      rcases hi.fed with hf | hc | hd
      · exact hfeed hf
      · exact hc hcut
      · change t.closed.reverse = [] at hnil
        exact hd (by rw [Scan.done, hnil]; rfl)
    · have := (rank_safetyHeight hp).1
      simp only [hi.height, beq_iff, hnan, Number.isNaN_zero, Number.rank_zero, true_and] at hheight
      simp only [lt_iff, hnan, Number.isNaN_zero, Number.rank_zero, true_and]
      omega

end Toolpath.Path
