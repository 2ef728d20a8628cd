import Toolpath.Proofs.Path.Drilling
import Toolpath.Proofs.Path.Legs

/-!
# Drops in another order

What covers a drop comes before it in a drilled path. Routing visits the runs in another order, and
what should cover a drop may then come after it. Nothing is lost as long as each run is visited in
its turn.
-/

namespace Toolpath.Path

open Toolpath.Geometry (Point)
open Number (lt_iff le_iff)

/-- All runs of the path ahead of the leg's own have been visited. -/
def InTurn (p : Path) (before : List Leg) (l : Leg) : Prop :=
  ∃ ahead behind, runs p = ahead ++ l.group.toList :: behind ∧
    ∀ r ∈ ahead, ∃ k ∈ before, k.group.toList = r

theorem coveredAfter_legs {done : List Waypoint} {legs : List Leg} :
    CoveredAfter done (legs.flatMap Leg.toList) ↔ ∀ before l after, legs = before ++ l :: after →
      CoveredAfter (done ++ before.flatMap Leg.toList) l.toList := by
  induction legs generalizing done with
  | nil => simp [coveredAfter_nil]
  | cons k legs ih =>
    rw [List.flatMap_cons, coveredAfter_append, ih]
    constructor
    · rintro ⟨hk, hlegs⟩ before l after h
      cases before with
      | nil =>
        obtain ⟨rfl, -⟩ := List.cons.inj h
        simpa using hk
      | cons k' before =>
        obtain ⟨rfl, h'⟩ := List.cons.inj h
        rw [List.flatMap_cons, ← List.append_assoc]
        exact hlegs before l after h'
    · intro h
      refine ⟨by simpa using h [] k legs rfl, fun before l after h' => ?_⟩
      have hl := h (k :: before) l after (by rw [h', List.cons_append])
      rwa [List.flatMap_cons, ← List.append_assoc] at hl

namespace Planned

variable {p : Path} {t : Travel} {π : Plan}

theorem coveredAfter_path (h : Planned p t π) :
    CoveredAfter [] π.path ↔ ∀ before l after, π.legs = before ++ l :: after →
      CoveredAfter (π.start :: before.flatMap Leg.toList) l.toList := by
  have hlift : CoveredAfter π.body π.lift := by
    obtain ⟨last, -, -, hlift⟩ := h.lift_eq
    refine coveredAfter_of_no_drop fun w hw v hdrop => ?_
    rw [hlift] at hw
    obtain rfl := List.mem_singleton.1 hw
    have hnot := h.not_below_of_eq (w := (last.withZ (safetyHeight p)).withMotion .rapid) rfl
    simp [Waypoint.below, hdrop.deep] at hnot
  unfold Plan.path
  rw [coveredAfter_append, List.nil_append, and_iff_left hlift]
  unfold Plan.body
  rw [coveredAfter_cons, List.nil_append, coveredAfter_legs, and_iff_right (by simp)]
  rfl

theorem exists_visited (h : Planned p t π) {before : List Leg} (hbefore : ∀ k ∈ before, k ∈ π.legs)
    {k : Leg} (hk : k ∈ before) {u : Waypoint} (hu : u ∈ k.group.toList) :
    ∃ v ∈ before.flatMap Leg.toList, v.point = u.point := by
  have hpoint : u.point ∈ k.cut.map (·.point) := by
    rw [h.map_point_cut (hbefore k hk)]
    exact List.mem_map_of_mem hu
  obtain ⟨v, hv, hpoint⟩ := List.mem_map.1 hpoint
  exact ⟨v, List.mem_flatMap.2 ⟨k, hk, List.mem_append_right _ hv⟩, hpoint⟩

/-- What covers a drop is below Z0, and thus in a run that has been visited. -/
theorem covered_of_ahead (h : Planned p t π) {before : List Leg}
    (hbefore : ∀ k ∈ before, k ∈ π.legs) {a : Path} {ahead : List (List Waypoint)}
    (ha : a.filter (·.below) = ahead.flatten)
    (hvisited : ∀ r ∈ ahead, ∃ k ∈ before, k.group.toList = r) {w : Waypoint}
    (hw : w.point.z < 0) (hcovered : Covered a w) :
    Covered (π.start :: before.flatMap Leg.toList) w := by
  obtain ⟨u, hu, hxy, hz⟩ := hcovered
  have hdeep : u.below = true := by
    have : u.point.z < 0 := by
      rw [lt_iff] at hw ⊢
      rw [le_iff] at hz
      exact ⟨hz.1, hw.2.1, by omega⟩
    simpa [Waypoint.below] using this
  have hrun : u ∈ ahead.flatten := ha ▸ List.mem_filter.2 ⟨hu, hdeep⟩
  obtain ⟨r, hr, hur⟩ := List.mem_flatten.1 hrun
  obtain ⟨k, hk, rfl⟩ := hvisited r hr
  obtain ⟨v, hv, hpoint⟩ := h.exists_visited hbefore hk hur
  exact ⟨v, List.mem_cons_of_mem _ hv, hpoint ▸ hxy, hpoint ▸ hz⟩

theorem approach_covered (h : Planned p t π) {l : Leg} (hl : l ∈ π.legs) (done : List Waypoint) :
    CoveredAfter done (l.hop.toList ++ l.climb) := by
  refine coveredAfter_of_no_drop fun w hw last => ?_
  rcases List.mem_append.1 hw with hw | hw
  · obtain ⟨here, hleg⟩ := h.exists_leg_eq hl
    rw [hleg] at hw
    rw [(t.hop_leg here _ w (Option.mem_toList.1 hw)).1]
    exact not_drops_of_linear rfl last
  · intro hdrop
    have hnot := h.climb_not_below hl w hw
    simp [Waypoint.below, hdrop.deep] at hnot

theorem entry_covered (h : Planned p t π) (hp : NaNFree p) {a b : Path} {g : Group}
    (hpath : p = a ++ g.toList ++ b) (hup : ∀ v ∈ a.getLast?, v.below = false)
    (hentry : ∀ v ∈ a.getLast?, Drops v g.entry → Covered a g.entry) {done : List Waypoint}
    (hstart : π.start ∈ done) (hcover : Covered a g.entry → Covered done g.entry)
    {last : Waypoint} (hdrop : Drops last g.entry) : Covered done g.entry := by
  cases hv : a.getLast? with
  | none =>
    obtain rfl := List.getLast?_eq_none_iff.1 hv
    have hsame : π.start = g.entry := by
      have hhead := h.start
      rw [hpath] at hhead
      exact (Option.some.inj hhead).symm
    have hnumber := hp _ h.start_mem
    rw [hsame] at hnumber hstart
    have hz := (Point.hasNaN_eq_false.1 hnumber).2.2
    exact ⟨g.entry, hstart, Point.sameXY_refl hnumber, le_iff.2 ⟨hz, hz, le_rfl⟩⟩
  | some v =>
    have hnumber := hp.z (w := v) (by simp [hpath, List.mem_of_getLast? hv])
    have hhigh : ¬ v.point.z < 0 := by simpa [Waypoint.below] using hup v hv
    have hlower : g.entry.point.z < v.point.z := by
      have hlow := hdrop.deep
      rw [lt_iff] at hhigh hlow ⊢
      rw [and_iff_right hnumber, and_iff_right Number.isNaN_zero] at hhigh
      exact ⟨hlow.1, hnumber, by omega⟩
    exact hcover (hentry v hv ⟨hdrop.rapid, hdrop.deep, hlower⟩)

/-- A leg in its turn adds no drop that is not covered. -/
theorem leg_covered (h : Planned p t π) (hp : NaNFree p) (hcovered : CoveredAfter [] p)
    {before after : List Leg} {l : Leg} (hl : π.legs = before ++ l :: after)
    (hturn : InTurn p before l) :
    CoveredAfter (π.start :: before.flatMap Leg.toList) l.toList := by
  obtain ⟨ahead, behind, hruns, hvisited⟩ := hturn
  obtain ⟨a, b, hpath, hahead, -, -, hup⟩ := runs_split hruns
  have hmem : l ∈ π.legs := by simp [hl]
  have hbefore : ∀ k ∈ before, k ∈ π.legs := fun k hk => by simp [hl, hk]
  have hcover : ∀ w, w.point.z < 0 → Covered a w →
      Covered (π.start :: before.flatMap Leg.toList) w := fun w hw =>
    h.covered_of_ahead hbefore hahead hvisited hw
  -- the run as it stands in the path: its first waypoint and the rest
  have hrun : CoveredAfter a l.group.toList := by
    rw [hpath, List.append_assoc, coveredAfter_append, coveredAfter_append] at hcovered
    simpa using hcovered.2.1
  obtain ⟨hentry, hrest⟩ := coveredAfter_cons.1 hrun
  obtain ⟨here, hleg⟩ := h.exists_leg_eq hmem
  have hpoint : l.entry.point = l.group.entry.point := by
    rw [hleg, Travel.group_leg]
    exact t.point_entry_leg here l.group
  have hsame : l.entry = l.group.entry ∨ l.entry.motion = .linear := by
    rw [hleg, Travel.group_leg]
    exact t.entry_leg here l.group
  refine coveredAfter_append.2 ⟨h.approach_covered hmem _, ?_⟩
  refine coveredAfter_cons.2 ⟨fun last _ hdrop => ?_, ?_⟩
  · rcases hsame with hsame | hlinear
    · rw [hsame] at hdrop ⊢
      refine (h.entry_covered hp hpath hup hentry (by simp) ?_ hdrop).append _
      exact hcover _ hdrop.deep
    · exact absurd hdrop (not_drops_of_linear hlinear last)
  · refine hrest.congr ?_ ?_
    · intro last hlast
      rw [List.getLast?_concat] at hlast
      cases hlast
      exact ⟨l.group.entry, by simp, by rw [hpoint]⟩
    · rintro w - hw ⟨u, hu, hxy, hz⟩
      rcases List.mem_append.1 hu with hu | hu
      · exact ((hcover w hw ⟨u, hu, hxy, hz⟩).append _).append _
      · obtain rfl := List.mem_singleton.1 hu
        exact ⟨l.entry, by simp, hpoint ▸ hxy, hpoint ▸ hz⟩

end Planned

/-- After routing, all drops of a drilled path are covered exactly if those of the legs out of their
turn are. -/
theorem route_drill_covered_iff {p q : Path} {tolerance : Float} (hp : NaNFree p)
    (hdrops : p.IsChain fun last w => ¬ Drops last w) (h : route tolerance (drill p) = .ok q) :
    ∃ π, plan tolerance (drill p) = .ok π ∧ q = π.path ∧
      (CoveredAfter [] q ↔ ∀ before l after, π.legs = before ++ l :: after →
        ¬ InTurn (drill p) before l →
          CoveredAfter (π.start :: before.flatMap Leg.toList) l.toList) := by
  obtain ⟨π, hplan, rfl⟩ := plan_of_route h
  obtain ⟨hdrilled, hcovered⟩ := drill_covered hp hdrops
  obtain ⟨t, -, hπ⟩ := plan_spec hdrilled hplan
  refine ⟨π, hplan, rfl, ?_⟩
  rw [hπ.coveredAfter_path]
  constructor
  · intro hlegs before l after hl _
    exact hlegs before l after hl
  · intro hlegs before l after hl
    by_cases hturn : InTurn (drill p) before l
    · exact hπ.leg_covered hdrilled hcovered hl hturn
    · exact hlegs before l after hl hturn

def deepFirst : Path :=
  [.initial, sample .rapid 0 5, sample .linear 0 (-2), sample .rapid 0 5, sample .linear 0 (-1),
    sample .rapid 0 5]

theorem drill_deepFirst : drill deepFirst =
    [.initial, sample .rapid 0 5, sample .linear 0 (-2), sample .rapid 0 5, sample .rapid 0 (-1),
      sample .rapid 0 5] := by
  have hsite : site (sample .linear 0 (-2)).point = site (sample .linear 0 (-1)).point := by
    simp only [site, sample]
  have hfresh : (∅ : Std.HashMap Site Float)[site (sample .linear 0 (-2)).point]? = none := by
    simp
  have hdone : ((∅ : Std.HashMap Site Float).insert (site (sample .linear 0 (-2)).point)
      (sample .linear 0 (-2)).point.z)[site (sample .linear 0 (-1)).point]? = some (-2) := by
    rw [hsite]
    exact Std.HashMap.getElem?_insert_self
  unfold drill deepFirst
  rw [walk_travel _ rfl, walk_travel _ rfl, walk_first_plunge _ (by decide) hfresh,
    walk_travel _ rfl, walk_shallow_plunge _ (by decide) hdone (by decide) (by decide),
    walk_travel _ rfl, walk_nil]
  rfl

theorem plan_deepFirst : plan 1 (drill deepFirst) = .ok {
    start := .initial
    legs := [
      { group := ⟨sample .rapid 0 (-1), []⟩, hop := none, climb := []
        entry := sample .rapid 0 (-1) },
      { group := ⟨sample .linear 0 (-2), []⟩, hop := none, climb := []
        entry := sample .linear 0 (-2) }]
    safetyHeight := 5 } := by
  have horder : nearestFirst .origin
      [⟨sample .linear 0 (-2), []⟩, ⟨sample .rapid 0 (-1), []⟩] =
      [⟨sample .rapid 0 (-1), []⟩, ⟨sample .linear 0 (-2), []⟩] := nearestFirst_swap rfl
  have hsurvey : survey [.initial, sample .rapid 0 5, sample .linear 0 (-2), sample .rapid 0 5,
      sample .rapid 0 (-1), sample .rapid 0 5] = .ok {
        groups := [⟨sample .linear 0 (-2), []⟩, ⟨sample .rapid 0 (-1), []⟩]
        safetyHeight := 5
        feedrate := 100 } := rfl
  rw [drill_deepFirst, plan_of_survey 1 hsurvey, horder]
  rfl

theorem nanFree_deepFirst : NaNFree deepFirst := by
  unfold NaNFree deepFirst
  decide

theorem deepFirst_without_drops : deepFirst.IsChain fun last w => ¬ Drops last w := by
  unfold deepFirst
  decide

/-- The drop to one millimetre goes into stock: nothing has been cut yet. -/
theorem deepFirst_counterexample : NaNFree deepFirst ∧
    (deepFirst.IsChain fun last w => ¬ Drops last w) ∧
    ∃ q, route 1 (drill deepFirst) = .ok q ∧ ¬ CoveredAfter [] q := by
  refine ⟨nanFree_deepFirst, deepFirst_without_drops, _, route_of_plan plan_deepFirst, ?_⟩
  intro hcovered
  have hdrop : Drops .initial (sample .rapid 0 (-1)) := by decide
  have hstart := hcovered [.initial] (sample .rapid 0 (-1)) _ rfl .initial rfl hdrop
  have hnot : ¬ Covered [.initial] (sample .rapid 0 (-1)) := by decide
  exact hnot hstart

theorem deepFirst_covered_iff : NaNFree deepFirst ∧
    (deepFirst.IsChain fun last w => ¬ Drops last w) ∧
    ∃ q, route 1 (drill deepFirst) = .ok q ∧ ∃ π, plan 1 (drill deepFirst) = .ok π ∧ q = π.path ∧
      (CoveredAfter [] q ↔ ∀ before l after, π.legs = before ++ l :: after →
        ¬ InTurn (drill deepFirst) before l →
          CoveredAfter (π.start :: before.flatMap Leg.toList) l.toList) := by
  have hp : NaNFree deepFirst := nanFree_deepFirst
  have hdrops := deepFirst_without_drops
  have hq := route_of_plan plan_deepFirst
  exact ⟨hp, hdrops, _, hq, route_drill_covered_iff hp hdrops hq⟩

end Toolpath.Path
