import Toolpath.Proofs.Path.Legs
import Toolpath.Proofs.Path.PlainScan
import Toolpath.Proofs.Path.Plunges

/-!
# Which paths are surveyed

A path without NaN is accepted exactly if it has the shape of plunges, level moves and lifts, enters
the stock at one feedrate, rises above Z0 and does not end below. The guard against moves above
stock inside a group never stops such a path. Told with plain lists, the groups of any path at all
are not empty.
-/

namespace Toolpath.Path

open Toolpath.Geometry (Point)
open Number (lt_iff le_iff beq_iff)

/-- A linear move with a feedrate from Z0 or above to below. -/
structure Enters (last : Point) (w : Waypoint) : Prop where
  linear : w.motion = .linear
  fed : 0 < w.modal.feedrate
  above : 0 ≤ last.z
  below : w.point.z < 0

instance (last : Point) (w : Waypoint) : Decidable (Enters last w) :=
  decidable_of_iff (w.motion = .linear ∧ 0 < w.modal.feedrate ∧ 0 ≤ last.z ∧ w.point.z < 0)
    ⟨fun ⟨linear, fed, above, below⟩ => ⟨linear, fed, above, below⟩,
      fun h => ⟨h.linear, h.fed, h.above, h.below⟩⟩

/-- The feedrates at which a path enters the stock, in order. -/
def entryFeedrates (p : Path) : List Float :=
  ((histories p).filter fun (before, w) => Enters (endPoint before) w).map (·.2.modal.feedrate)

/-- What a survey asks of each stretch at the start of a path. -/
structure Orderly (p : Path) : Prop where
  steps : (Waypoint.initial :: p).IsChain Admissible
  feedrates : ∀ f ∈ entryFeedrates p, ∀ g ∈ entryFeedrates p, f = g

/-- What a survey asks of a path. -/
structure Routable (p : Path) : Prop where
  steps : (Waypoint.initial :: p).IsChain Admissible
  feedrate : ∃ f ∈ entryFeedrates p, ∀ g ∈ entryFeedrates p, g = f
  rises : ∃ w ∈ p, 0 < w.point.z
  lifted : 0 ≤ (endPoint p).z

/-- What a survey says of a path. -/
structure Findings (p : Path) (s : Survey) : Prop where
  groups : s.groups.map Group.toList = runs p
  attained : ∃ w ∈ p, w.point.z = s.safetyHeight
  highest : ∀ w ∈ p, w.point.z ≤ s.safetyHeight
  entered : s.feedrate ∈ entryFeedrates p
  shared : ∀ f ∈ entryFeedrates p, f = s.feedrate

section Feedrates

variable {p q : Path} {w : Waypoint} {f : Float}

theorem mem_entryFeedrates : f ∈ entryFeedrates p ↔
    ∃ before w, (before, w) ∈ histories p ∧ Enters (endPoint before) w ∧ w.modal.feedrate = f := by
  simp [entryFeedrates, and_assoc]

theorem pos_of_mem_entryFeedrates (h : f ∈ entryFeedrates p) : 0 < f := by
  obtain ⟨_, w, -, henters, rfl⟩ := mem_entryFeedrates.1 h
  exact henters.fed

theorem entryFeedrates_concat (p : Path) (w : Waypoint) : entryFeedrates (p ++ [w]) =
    entryFeedrates p ++ if Enters (endPoint p) w then [w.modal.feedrate] else [] := by
  unfold entryFeedrates
  rw [histories_concat, List.filter_append, List.map_append, List.filter_singleton]
  by_cases h : Enters (endPoint p) w
  · simp [h]
  · simp [h]

theorem entryFeedrates_subset (p q : Path) : entryFeedrates p ⊆ entryFeedrates (p ++ q) := by
  intro f hf
  obtain ⟨before, w, hmem, hw⟩ := mem_entryFeedrates.1 hf
  obtain ⟨after, rfl⟩ := mem_histories.1 hmem
  exact mem_entryFeedrates.2 ⟨before, w, mem_histories.2 ⟨after ++ q, by simp⟩, hw⟩

theorem Orderly.of_append (h : Orderly (p ++ q)) : Orderly p := by
  constructor
  · have hsteps := h.steps
    rw [← List.cons_append, List.isChain_append] at hsteps
    exact hsteps.1
  · intro f hf g hg
    exact h.feedrates f (entryFeedrates_subset p q hf) g (entryFeedrates_subset p q hg)

end Feedrates

namespace Scan

structure Fed (seen : Path) (s : Scan) : Prop where
  feedrate : s.feedrate = (entryFeedrates seen).headD 0
  shared : ∀ f ∈ entryFeedrates seen, f = s.feedrate

/-- A waypoint that enters the stock has the feedrate found so far, or shows the first one. -/
def Fits (s : Scan) (w : Waypoint) : Prop :=
  Enters s.last w → (s.feedrate == 0) = true ∨ (w.modal.feedrate == s.feedrate) = true

inductive Verdict (s : Scan) (w : Waypoint) : Except Refusal Scan → Prop
  | accepted {t : Scan} (step : ∀ a : Waypoint, a.point = s.last → Admissible a w) (fits : s.Fits w)
    (feedrate : t.feedrate =
      if Enters s.last w ∧ (s.feedrate == 0) = true then w.modal.feedrate else s.feedrate) :
    Verdict s w (.ok t)
  | refused {r : Refusal} (h : ∀ a : Waypoint, a.point = s.last → ¬ (Admissible a w ∧ s.Fits w))
    (guard : ∀ index, r ≠ .aboveStock index) : Verdict s w (.error r)

variable {seen : Path} {s : Scan} {w : Waypoint}

theorem initial_fed : Fed [] initial where
  feedrate := rfl
  shared := by simp [entryFeedrates]

theorem Fed.feedrate_eq_zero (h : Fed seen s) :
    (s.feedrate == 0) = true ↔ entryFeedrates seen = [] := by
  constructor
  · intro hzero
    cases hfeeds : entryFeedrates seen with
    | nil => rfl
    | cons f feeds =>
      have hfeed := h.feedrate
      have hpos := pos_of_mem_entryFeedrates (p := seen) (f := f) (by simp [hfeeds])
      rw [hfeeds, List.headD_cons] at hfeed
      rw [hfeed, beq_iff] at hzero
      rw [lt_iff] at hpos
      omega
  · intro hnil
    rw [h.feedrate, hnil]
    decide

theorem Fed.feedrate_mem (h : Fed seen s) (hne : entryFeedrates seen ≠ []) :
    s.feedrate ∈ entryFeedrates seen := by
  obtain ⟨f, feeds, hcons⟩ := List.exists_cons_of_ne_nil hne
  rw [h.feedrate, hcons]
  exact List.mem_cons_self

theorem Invariant.endPoint_eq (hi : Invariant seen s) : endPoint seen = s.last := hi.last.symm

theorem Invariant.cut_eq_nil_of_above (hi : Invariant seen s) (h : 0 ≤ s.last.z) : s.cut = [] := by
  by_contra hopen
  have hdeep := hi.below_iff.2 hopen
  rw [le_iff] at h
  rw [lt_iff] at hdeep
  omega

theorem enter_verdict {index : Nat} (hcurrent : s.current = none)
    (hxy : w.point.sameXY s.last = true) (habove : 0 ≤ s.last.z) (hbelow : w.point.z < 0) :
    Verdict s w (s.enter index w) := by
  have hstep : ∀ a : Waypoint, a.point = s.last → Admissible a w := by
    rintro a ha
    exact ⟨.inr (ha ▸ hxy), fun _ _ => ha ▸ hxy⟩
  have henters : Enters s.last w ↔ w.motion = .linear ∧ 0 < w.modal.feedrate :=
    ⟨fun h => ⟨h.linear, h.fed⟩, fun h => ⟨h.1, h.2, habove, hbelow⟩⟩
  simp only [enter, noteFeedrate, bind, Except.bind]
  by_cases hfed : w.motion = .linear ∧ 0 < w.modal.feedrate
  · rw [if_pos hfed]
    by_cases hfirst : (s.feedrate == 0) = true
    · rw [if_pos hfirst]
      simp only [hcurrent]
      exact .accepted hstep (fun _ => .inl hfirst) (if_pos ⟨henters.2 hfed, hfirst⟩).symm
    · rw [if_neg hfirst]
      by_cases hsame : (w.modal.feedrate == s.feedrate) = true
      · rw [if_pos hsame]
        simp only [hcurrent]
        exact .accepted hstep (fun _ => .inr hsame) (if_neg fun h => hfirst h.2).symm
      · rw [if_neg hsame]
        refine .refused ?_ (by simp)
        rintro a - ⟨-, hfits⟩
        exact (hfits (henters.2 hfed)).elim hfirst hsame
  · rw [if_neg hfed]
    simp only [hcurrent]
    have hnot : ¬ Enters s.last w := fun h => hfed (henters.1 h)
    exact .accepted hstep (fun h => absurd h hnot) (if_neg fun h => hnot h.1).symm

theorem exists_extend (h : s.cut ≠ [] → w.point.z < 0) (index : Nat) :
    ∃ t, s.extend index w = .ok t := by
  rw [extend]
  cases hcurrent : s.current with
  | none => exact ⟨_, rfl⟩
  | some g =>
    have hopen : s.cut ≠ [] := by
      rw [ne_eq, cut_eq_nil, hcurrent]
      exact Option.some_ne_none g
    have hlow : ¬ 0 < w.point.z := by
      intro hhigh
      have hdeep := h hopen
      rw [lt_iff] at hdeep hhigh
      omega
    exact ⟨_, if_neg hlow⟩

theorem step_verdict (index : Nat) (hi : Invariant seen s) (hw : w.point.hasNaN = false) :
    Verdict s w (s.step index w) := by
  have hbelow : w.below = true ↔ w.point.z < 0 := by simp [Waypoint.below]
  rw [step]
  by_cases hcomplex : !(w.point.z == s.last.z) ∧ !w.point.sameXY s.last
  · rw [if_pos hcomplex]
    refine .refused ?_ (by simp)
    rintro a ha ⟨hstep, -⟩
    have hstraight := hstep.straight
    rw [ha] at hstraight
    simp only [Bool.not_eq_true'] at hcomplex
    rcases hstraight with h | h
    · rw [hcomplex.1] at h
      cases h
    · rw [hcomplex.2] at h
      cases h
  rw [if_neg hcomplex]
  have hstraight : (w.point.z == s.last.z) = true ∨ w.point.sameXY s.last = true := by
    simpa [or_iff_not_imp_left] using hcomplex
  by_cases henter : w.point.sameXY s.last ∧ 0 ≤ s.last.z ∧ w.point.z < 0
  · rw [if_pos henter]
    obtain ⟨hxy, habove, hdeep⟩ := henter
    exact enter_verdict (cut_eq_nil.1 (hi.cut_eq_nil_of_above habove)) hxy habove hdeep
  rw [if_neg henter]
  have hnot : ¬ Enters s.last w := by
    intro h
    have hlow := h.below
    have hhigh := h.above
    rcases hstraight with hlevel | hxy
    · rw [beq_iff] at hlevel
      rw [lt_iff] at hlow
      rw [le_iff] at hhigh
      omega
    · exact henter ⟨hxy, hhigh, hlow⟩
  by_cases hleave : w.point.sameXY s.last ∧ s.last.z < 0 ∧ 0 ≤ w.point.z
  · rw [if_pos hleave]
    refine .accepted ?_ (fun h => absurd h hnot) ?_
    · intro a ha
      exact ⟨ha ▸ hstraight, fun _ _ => ha ▸ hleave.1⟩
    · rw [(leave_effect s w).2.2.2.1, if_neg fun h => hnot h.1]
  rw [if_neg hleave]
  by_cases hrapid : !w.point.sameXY s.last ∧ w.point.z < 0 ∧ w.motion = .rapid
  · rw [if_pos hrapid]
    refine .refused ?_ (by simp)
    rintro a ha ⟨hstep, -⟩
    have hxy := hstep.cutting (hbelow.2 hrapid.2.1) hrapid.2.2
    rw [ha] at hxy
    simp [hxy] at hrapid
  rw [if_neg hrapid]
  have hside := hi.below_iff_of_stays hw hstraight henter hleave
  obtain ⟨t, ht⟩ := exists_extend (fun hopen => hbelow.1 (hside.2 hopen)) index
  rw [ht]
  obtain ⟨-, -, -, hfeedrate, -⟩ := extend_effect ht
  refine .accepted ?_ (fun h => absurd h hnot) ?_
  · intro a ha
    refine ⟨ha ▸ hstraight, ?_⟩
    intro hdeep hmotion
    rw [ha]
    simpa [hbelow.1 hdeep, hmotion] using hrapid
  · rw [hfeedrate, if_neg fun h => hnot h.1]

theorem Fed.concat {t : Scan} (hi : Invariant seen s) (hf : Fed seen s) (hfits : s.Fits w)
    (ht : t.feedrate =
      if Enters s.last w ∧ (s.feedrate == 0) = true then w.modal.feedrate else s.feedrate) :
    Fed (seen ++ [w]) t := by
  have hfeeds := entryFeedrates_concat seen w
  rw [hi.endPoint_eq] at hfeeds
  by_cases henters : Enters s.last w
  · rw [if_pos henters] at hfeeds
    by_cases hfirst : (s.feedrate == 0) = true
    · rw [if_pos ⟨henters, hfirst⟩] at ht
      rw [hf.feedrate_eq_zero.1 hfirst, List.nil_append] at hfeeds
      constructor
      · rw [hfeeds, ht]
        rfl
      · intro f hmem
        rw [hfeeds, List.mem_singleton] at hmem
        rw [hmem, ht]
    · rw [if_neg fun h => hfirst h.2] at ht
      have hne : entryFeedrates seen ≠ [] := mt hf.feedrate_eq_zero.2 hfirst
      constructor
      · rw [ht, hf.feedrate, hfeeds]
        obtain ⟨f, feeds, hcons⟩ := List.exists_cons_of_ne_nil hne
        rw [hcons]
        rfl
      · intro f hmem
        rw [hfeeds, List.mem_append, List.mem_singleton] at hmem
        rw [ht]
        rcases hmem with hmem | rfl
        · exact hf.shared f hmem
        · exact Number.eq_of_beq_of_pos ((hfits henters).resolve_left hfirst) henters.fed
  · rw [if_neg henters, List.append_nil] at hfeeds
    rw [if_neg fun h => henters h.1] at ht
    exact ⟨by rw [hfeeds, ht, hf.feedrate], by rw [hfeeds, ht]; exact hf.shared⟩

theorem Fed.orderly (hf : Fed seen s) (hsteps : (Waypoint.initial :: seen).IsChain Admissible) :
    Orderly seen := by
  refine ⟨hsteps, ?_⟩
  intro f hfmem g hgmem
  exact (hf.shared f hfmem).trans (hf.shared g hgmem).symm

/-- The path stays orderly exactly if the next step is admissible and fits. -/
theorem orderly_concat_iff (hi : Invariant seen s) (hf : Fed seen s) :
    Orderly (seen ++ [w]) ↔ Admissible (seen.getLastD .initial) w ∧ s.Fits w := by
  constructor
  · intro h
    refine ⟨(isChain_concat_iff.1 h.steps).2, ?_⟩
    intro henters
    by_cases hfirst : (s.feedrate == 0) = true
    · exact .inl hfirst
    · right
      have hfound := hf.feedrate_mem (mt hf.feedrate_eq_zero.2 hfirst)
      have hfeeds := entryFeedrates_concat seen w
      rw [hi.endPoint_eq, if_pos henters] at hfeeds
      have hsame := h.feedrates w.modal.feedrate (by simp [hfeeds]) s.feedrate
        (by simp [hfeeds, hfound])
      rw [← hsame]
      exact Number.beq_self (lt_iff.1 henters.fed).2.1
  · rintro ⟨hstep, hfits⟩
    have hfed : Fed (seen ++ [w]) _ := Fed.concat (t := { s with feedrate := _ }) hi hf hfits rfl
    exact hfed.orderly (isChain_concat_iff.2 ⟨hi.steps, hstep⟩)

inductive Outcome (p : Path) : Except Refusal Scan → Prop
  | accepted {s : Scan} (orderly : Orderly p) (invariant : Invariant p s) (fed : Fed p s) :
    Outcome p (.ok s)
  | refused {r : Refusal} (disorderly : ¬ Orderly p) (guard : ∀ index, r ≠ .aboveStock index) :
    Outcome p (.error r)

theorem step_outcome {index : Nat} (hi : Invariant seen s) (hf : Fed seen s)
    (hw : w.point.hasNaN = false) : Outcome (seen ++ [w]) (s.step index w) := by
  have hverdict := step_verdict index hi hw
  cases hstep : s.step index w with
  | error r =>
    rw [hstep] at hverdict
    cases hverdict with
    | refused h guard =>
      exact .refused (fun ho => h _ hi.last.symm ((orderly_concat_iff hi hf).1 ho)) guard
  | ok t =>
    rw [hstep] at hverdict
    cases hverdict with
    | accepted step fits feedrate =>
      exact .accepted ((orderly_concat_iff hi hf).2 ⟨step _ hi.last.symm, fits⟩)
        (step_preserves_invariant hi hw hstep) (hf.concat hi fits feedrate)

theorem run_outcome {p : Path} (hp : NaNFree p) :
    Outcome p (p.zipIdx.foldlM (fun s (w, index) => s.step index w) initial) := by
  induction p using List.reverseRecOn with
  | nil => exact .accepted ⟨.singleton _, by simp [entryFeedrates]⟩ initial_invariant initial_fed
  | append_singleton p w ih =>
    have hrun := ih fun v hv => hp v (by simp [hv])
    rw [List.zipIdx_append, List.foldlM_append]
    cases hs : p.zipIdx.foldlM (fun s (w, index) => s.step index w) initial with
    | error r =>
      rw [hs] at hrun
      cases hrun with
      | refused disorderly guard => exact .refused (fun h => disorderly h.of_append) guard
    | ok s =>
      rw [hs] at hrun
      cases hrun with
      | accepted orderly invariant fed =>
        change Outcome _ (s.step (0 + p.length) w >>= pure)
        rw [bind_pure]
        exact step_outcome invariant fed (hp w (by simp))

theorem Invariant.closed_iff {p : Path} (hi : Invariant p s) :
    s.current.isSome = false ↔ 0 ≤ (endPoint p).z := by
  have hz := (Point.hasNaN_eq_false.1 hi.number).2.2
  rw [hi.endPoint_eq, Option.isSome_eq_false_iff, Option.isNone_iff_eq_none, ← cut_eq_nil]
  constructor
  · intro hclosed
    have hhigh : ¬ s.last.z < 0 := fun hdeep => hi.below_iff.1 hdeep hclosed
    exact Number.le_of_not_lt hz Number.isNaN_zero hhigh
  · exact hi.cut_eq_nil_of_above

theorem finish_eq_ok_iff {f : Survey} : s.finish = .ok f ↔
    ((s.height == 0) = false ∧ (s.feedrate == 0) = false ∧ s.current.isSome = false) ∧
      f = ⟨s.closed.reverse, s.height, s.feedrate⟩ := by
  rw [finish]
  split_ifs with hheight hfeedrate hopen
  · simp [hheight]
  · simp [hfeedrate]
  · simp [hopen]
  · simp [hheight, hfeedrate, hopen, eq_comm]

theorem finish_ne_aboveStock {index : Nat} : s.finish ≠ .error (.aboveStock index) := by
  rw [finish]
  split_ifs <;> simp

end Scan

theorem rises_iff {p : Path} (hp : NaNFree p) :
    (safetyHeight p == 0) = false ↔ ∃ w ∈ p, 0 < w.point.z := by
  obtain ⟨hnonneg, hle⟩ := rank_safetyHeight hp
  have hnumber := isNaN_safetyHeight p
  rw [Bool.eq_false_iff, ne_eq, beq_iff]
  simp only [lt_iff, hnumber, Number.isNaN_zero, Number.rank_zero, true_and]
  constructor
  · intro hne
    rcases safetyHeight_eq p with hzero | ⟨w, hw, htop⟩
    · rw [hzero, Number.rank_zero] at hne
      exact absurd rfl hne
    · refine ⟨w, hw, hp.z hw, ?_⟩
      rw [htop]
      omega
  · rintro ⟨w, hw, -, hpos⟩ hzero
    have htop := hle w hw
    omega

theorem routable_iff {p : Path} : Routable p ↔ Orderly p ∧ entryFeedrates p ≠ [] ∧
    (∃ w ∈ p, 0 < w.point.z) ∧ 0 ≤ (endPoint p).z := by
  constructor
  · rintro ⟨steps, ⟨f, hf, hshared⟩, rises, lifted⟩
    refine ⟨⟨steps, ?_⟩, List.ne_nil_of_mem hf, rises, lifted⟩
    intro g hg h hh
    rw [hshared g hg, hshared h hh]
  · rintro ⟨⟨steps, feedrates⟩, hne, rises, lifted⟩
    obtain ⟨f, hf⟩ := List.exists_mem_of_ne_nil _ hne
    exact ⟨steps, ⟨f, hf, fun g hg => feedrates g hg f hf⟩, rises, lifted⟩

inductive SurveyOutcome (p : Path) : Except Refusal Survey → Prop
  | accepted {s : Survey} (routable : Routable p) (entered : s.feedrate ∈ entryFeedrates p)
    (shared : ∀ f ∈ entryFeedrates p, f = s.feedrate) : SurveyOutcome p (.ok s)
  | refused {r : Refusal} (unroutable : ¬ Routable p) (guard : ∀ index, r ≠ .aboveStock index) :
    SurveyOutcome p (.error r)

theorem SurveyOutcome.ok_iff {p : Path} {r : Except Refusal Survey} (h : SurveyOutcome p r) :
    (∃ s, r = .ok s) ↔ Routable p := by
  cases h with
  | accepted routable => simp [routable]
  | refused unroutable => simp [unroutable]

theorem SurveyOutcome.ne_aboveStock {p : Path} {r : Except Refusal Survey}
    (h : SurveyOutcome p r) (index : Nat) : r ≠ .error (.aboveStock index) := by
  rintro rfl
  cases h with
  | refused _ guard => exact guard index rfl

theorem finish_outcome {p : Path} {s : Scan} (hp : NaNFree p) (orderly : Orderly p)
    (hi : s.Invariant p) (hf : s.Fed p) : SurveyOutcome p s.finish := by
  have hfed : (s.feedrate == 0) = false ↔ entryFeedrates p ≠ [] := by
    rw [Bool.eq_false_iff, ne_eq, hf.feedrate_eq_zero]
  have hrises : (s.height == 0) = false ↔ ∃ w ∈ p, 0 < w.point.z := hi.height ▸ rises_iff hp
  cases hfinish : s.finish with
  | ok f =>
    obtain ⟨⟨hheight, hfeedrate, hclosed⟩, rfl⟩ := Scan.finish_eq_ok_iff.1 hfinish
    have hne := hfed.1 hfeedrate
    refine .accepted ?_ ?_ hf.shared
    · exact routable_iff.2 ⟨orderly, hne, hrises.1 hheight, hi.closed_iff.1 hclosed⟩
    · exact hf.feedrate_mem hne
  | error r =>
    refine .refused ?_ fun index h => Scan.finish_ne_aboveStock (h ▸ hfinish)
    intro hroutable
    obtain ⟨-, hne, hup, hlifted⟩ := routable_iff.1 hroutable
    have hok := Scan.finish_eq_ok_iff.2
      ⟨⟨hrises.2 hup, hfed.2 hne, hi.closed_iff.2 hlifted⟩, rfl⟩
    rw [hfinish] at hok
    cases hok

theorem survey_outcome {p : Path} (hp : NaNFree p) : SurveyOutcome p (survey p) := by
  have hrun := Scan.run_outcome hp
  rw [survey]
  cases hs : p.zipIdx.foldlM (fun s (w, index) => Scan.step s index w) Scan.initial with
  | error r =>
    rw [hs] at hrun
    cases hrun with
    | refused disorderly guard => exact .refused (fun h => disorderly (routable_iff.1 h).1) guard
  | ok s =>
    rw [hs] at hrun
    cases hrun with
    | accepted orderly invariant fed => exact finish_outcome hp orderly invariant fed

theorem survey_findings {p : Path} {s : Survey} (hp : NaNFree p) (h : survey p = .ok s) :
    Findings p s := by
  have houtcome := survey_outcome hp
  rw [h] at houtcome
  obtain ⟨-, hgroups, -, hheight, hpositive⟩ := survey_spec hp h
  cases houtcome with
  | accepted routable entered shared =>
    refine ⟨hgroups, ?_, ?_, entered, shared⟩
    · rw [hheight]
      refine (safetyHeight_eq p).resolve_left ?_
      intro hzero
      rw [hzero, lt_iff] at hpositive
      omega
    · intro w hw
      rw [hheight, le_iff]
      exact ⟨hp.z hw, isNaN_safetyHeight _, (rank_safetyHeight hp).2 w hw⟩

/-- A path without NaN is accepted exactly if it can be routed, with its runs below Z0, its highest
level and its feedrate. Groups of any path start with a waypoint. -/
theorem survey_accepts_routable (p : Path) :
    (NaNFree p → ((∃ s, survey p = .ok s) ↔ Routable p) ∧
      (∀ s, survey p = .ok s → Findings p s) ∧
      ∀ index, survey p ≠ .error (.aboveStock index)) ∧
    plainSurvey p = (survey p).map Survey.plain ∧
    ∀ s, plainSurvey p = .ok s → [] ∉ s.groups := by
  refine ⟨?_, plainSurvey_eq p, ?_⟩
  · intro hp
    have houtcome := survey_outcome hp
    exact ⟨houtcome.ok_iff, fun s hs => survey_findings hp hs, houtcome.ne_aboveStock⟩
  · intro s hs
    rw [plainSurvey_eq] at hs
    cases hsurvey : survey p with
    | error r =>
      rw [hsurvey] at hs
      cases hs
    | ok t =>
      rw [hsurvey] at hs
      cases hs
      exact t.nil_not_mem_plain_groups

theorem twoHoles_routable : NaNFree twoHoles ∧ Routable twoHoles ∧ ∃ s, survey twoHoles = .ok s ∧
    Findings twoHoles s ∧ [] ∉ s.plain.groups := by
  have hp : NaNFree twoHoles := nanFree_twoHoles
  obtain ⟨haccepts, hplain, hgroups⟩ := survey_accepts_routable twoHoles
  obtain ⟨hiff, hfindings, -⟩ := haccepts hp
  rw [survey_twoHoles] at hplain
  exact ⟨hp, hiff.1 ⟨_, survey_twoHoles⟩, _, survey_twoHoles, hfindings _ survey_twoHoles,
    hgroups _ hplain⟩

/-- The guard is for levels that are not numbers. -/
example : survey [.initial, sample .linear 0 (-1), sample .linear 0 (0 / 0), sample .linear 0 5] =
    .error (.aboveStock 3) := rfl

end Toolpath.Path
