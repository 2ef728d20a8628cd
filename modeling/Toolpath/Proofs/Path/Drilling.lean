import Mathlib.Data.List.Chain
import Toolpath.Path.Drilling
import Toolpath.Proofs.Path.Drops
import Toolpath.Proofs.Path.SafetyPlane

/-!
# What drilling covers

Drilling turns plunges into drops only where they are covered. A path without drops of its own has
none that is not covered after drilling.
-/

namespace Toolpath.Path

open Toolpath.Geometry (Point)
open Number (rank lt_iff le_iff beq_iff smaller)

theorem beq_of_siteKey_eq {a b : Float} (ha : a.isNaN = false) (hb : b.isNaN = false)
    (h : siteKey a = siteKey b) : (a == b) = true := by
  have hzero : ∀ x : Float, x.toBits = 0 → x = 0 := fun x hx => Number.eq_of_toBits_eq hx
  unfold siteKey at h
  split at h
  · rename_i hza
    have hzb : (b == 0) = true := by
      split at h
      · assumption
      · rw [hzero b h.symm]
        decide
    simp only [beq_iff] at hza hzb ⊢
    exact ⟨ha, hb, hza.2.2.trans hzb.2.2.symm⟩
  · split at h
    · rename_i hza _
      rw [hzero a h] at hza
      exact absurd (by decide) hza
    · rw [Number.eq_of_toBits_eq h]
      exact Number.beq_self hb

theorem sameXY_of_site_eq {a b : Point} (ha : a.hasNaN = false) (hb : b.hasNaN = false)
    (h : site a = site b) : a.sameXY b = true := by
  obtain ⟨hax, hay, -⟩ := Point.hasNaN_eq_false.1 ha
  obtain ⟨hbx, hby, -⟩ := Point.hasNaN_eq_false.1 hb
  obtain ⟨hx, hy⟩ := Prod.mk.inj h
  exact Point.sameXY_iff.2 ⟨beq_of_siteKey_eq hax hbx hx, beq_of_siteKey_eq hay hby hy⟩

theorem siteKey_eq_of_beq {a b : Float} (h : (a == b) = true) : siteKey a = siteKey b := by
  obtain ⟨ha, hb, hrank⟩ := beq_iff.1 h
  by_cases h0 : rank a = 0
  · have hza : (a == 0) = true := beq_iff.2 ⟨ha, Number.isNaN_zero, by simpa using h0⟩
    have hzb : (b == 0) = true := beq_iff.2 ⟨hb, Number.isNaN_zero, by simpa [← hrank] using h0⟩
    unfold siteKey
    rw [hza, hzb]
    rfl
  · rw [Number.eq_of_rank_eq hrank h0]

theorem site_eq_of_sameXY {a b : Point} (h : a.sameXY b = true) : site a = site b := by
  obtain ⟨hx, hy⟩ := Point.sameXY_iff.1 h
  exact Prod.ext (siteKey_eq_of_beq hx) (siteKey_eq_of_beq hy)

section Walk

variable {last : Point} {depths : Std.HashMap Site Float} {w : Waypoint} {depth : Float} (p : Path)

theorem walk_travel (h : plunges last w = false) :
    walk drillStep ⟨last, depths⟩ (w :: p) = w :: walk drillStep ⟨w.point, depths⟩ p := by
  simp [drillStep, h]

theorem walk_first_plunge (h : plunges last w = true) (hd : depths[site w.point]? = none) :
    walk drillStep ⟨last, depths⟩ (w :: p) =
      w :: walk drillStep ⟨w.point, depths.insert (site w.point) w.point.z⟩ p := by
  simp [drillStep, h, Drilled.depth?, Drilled.deepen, hd, plunge]

theorem walk_shallow_plunge (h : plunges last w = true) (hd : depths[site w.point]? = some depth)
    (hstart : ¬ last.z ≤ depth) (hz : depth ≤ w.point.z) :
    walk drillStep ⟨last, depths⟩ (w :: p) = w.withMotion .rapid ::
      walk drillStep ⟨w.point, depths.insert (site w.point) (smaller depth w.point.z)⟩ p := by
  simp [drillStep, h, Drilled.depth?, Drilled.deepen, hd, plunge, hstart, hz]

end Walk

namespace Drilled

/-- Each remembered depth is that of a waypoint already written for the place. -/
structure Invariant (done : Path) (d : Drilled) : Prop where
  numbers : NaNFree done
  last : ∀ v ∈ done.getLast?, v.point = d.last
  depths : ∀ s depth, d.depths[s]? = some depth →
    ∃ u ∈ done, site u.point = s ∧ u.point.z = depth

theorem Invariant.covers {done : Path} {d : Drilled} (hi : Invariant done d) {p : Point}
    (hp : p.hasNaN = false) {depth : Float} (h : d.depth? p = some depth) :
    ∃ u ∈ done, u.point.sameXY p = true ∧ u.point.z = depth ∧ depth.isNaN = false := by
  obtain ⟨u, hu, hsite, hz⟩ := hi.depths _ _ h
  exact ⟨u, hu, sameXY_of_site_eq (hi.numbers u hu) hp hsite, hz, hz ▸ hi.numbers.z hu⟩

theorem Invariant.move {done out : Path} {d : Drilled} (hi : Invariant done d) {p : Point}
    (hout : NaNFree out) (hlast : ∃ v ∈ out.getLast?, v.point = p) :
    Invariant (done ++ out) { d with last := p } where
  numbers w hw := (List.mem_append.1 hw).elim (hi.numbers w) (hout w)
  last v hv := by
    obtain ⟨u, hu, hpoint⟩ := hlast
    rw [List.getLast?_append, Option.mem_def.1 hu] at hv
    cases hv
    exact hpoint
  depths s depth h := by
    obtain ⟨u, hu, hsite⟩ := hi.depths s depth h
    exact ⟨u, List.mem_append_left _ hu, hsite⟩

theorem Invariant.deepen {done out : Path} {d : Drilled} (hi : Invariant done d) {p : Point}
    (hout : NaNFree out) (hlast : ∃ v ∈ out.getLast?, v.point = p) :
    Invariant (done ++ out) (d.deepen p) := by
  have hmove := hi.move hout hlast
  refine ⟨hmove.numbers, hmove.last, fun s depth h => ?_⟩
  have hnew : ∃ u ∈ done ++ out, site u.point = site p ∧ u.point.z = p.z := by
    obtain ⟨u, hu, rfl⟩ := hlast
    exact ⟨u, List.mem_append_right _ (List.mem_of_getLast? hu), rfl, rfl⟩
  simp only [Drilled.deepen] at h
  rw [Std.HashMap.getElem?_insert] at h
  split at h
  · rename_i hs
    obtain rfl := eq_of_beq hs
    cases h
    split
    · rename_i old hold
      rcases Number.smaller_eq old p.z with hmin | hmin <;> rw [hmin]
      · exact hmove.depths _ _ hold
      · exact hnew
    · exact hnew
  · exact hmove.depths s depth h

variable {done : Path} {d : Drilled} {w : Waypoint}

theorem Invariant.plunge (hi : Invariant done d) (hw : w.point.hasNaN = false)
    (hm : w.motion = .linear) (start : Float) :
    NaNFree (plunge start (d.depth? w.point) w) ∧
      (∃ v ∈ (plunge start (d.depth? w.point) w).getLast?, v.point = w.point) ∧
      CoveredAfter done (plunge start (d.depth? w.point) w) := by
  have hplain : NaNFree [w] ∧ (∃ v ∈ [w].getLast?, v.point = w.point) ∧ CoveredAfter done [w] := by
    refine ⟨by simpa [NaNFree] using hw, ⟨w, rfl, rfl⟩, coveredAfter_of_no_drop fun v hv => ?_⟩
    obtain rfl := List.mem_singleton.1 hv
    exact not_drops_of_linear hm
  obtain ⟨hx, hy, hz⟩ := Point.hasNaN_eq_false.1 hw
  unfold Path.plunge
  split
  · exact hplain
  · rename_i depth hdepth
    obtain ⟨u, hu, hxy, rfl, hnumber⟩ := hi.covers hw hdepth
    split
    · exact hplain
    · split
      · rename_i hdeep
        refine ⟨fun v hv => ?_, ⟨_, rfl, rfl⟩, ?_⟩
        · obtain rfl := List.mem_singleton.1 hv
          exact hw
        · exact coveredAfter_cons.2 ⟨fun _ _ _ => ⟨u, hu, hxy, hdeep⟩, coveredAfter_nil _⟩
      · have hat : u.point.z ≤ u.point.z := le_iff.2 ⟨hnumber, hnumber, le_rfl⟩
        refine ⟨?_, ⟨w, rfl, rfl⟩, ?_⟩
        · intro v hv
          rcases List.mem_pair.1 hv with rfl | rfl
          · exact Point.hasNaN_eq_false.2 ⟨hx, hy, hnumber⟩
          · exact hw
        · refine coveredAfter_cons.2 ⟨fun _ _ _ => ⟨u, hu, hxy, hat⟩, ?_⟩
          refine coveredAfter_cons.2 ⟨fun last _ hdrop => ?_, coveredAfter_nil _⟩
          exact absurd hdrop (not_drops_of_linear hm last)

theorem step_preserves_invariant (hi : Invariant done d) (hw : w.point.hasNaN = false)
    (hdrop : ∀ last ∈ done.getLast?, ¬ Drops last w) :
    (∃ v ∈ (drillStep d w).2.getLast?, v.point = w.point) ∧
      CoveredAfter done (drillStep d w).2 ∧
      Invariant (done ++ (drillStep d w).2) (drillStep d w).1 := by
  unfold drillStep
  split
  · rename_i hplunge
    have hm : w.motion = .linear := by
      unfold plunges at hplunge
      simpa using (Bool.and_eq_true_iff.1 hplunge).2
    obtain ⟨hnumbers, hlast, hcovered⟩ := hi.plunge hw hm d.last.z
    exact ⟨hlast, hcovered, hi.deepen hnumbers hlast⟩
  · have hlast : ∃ v ∈ [w].getLast?, v.point = w.point := ⟨w, rfl, rfl⟩
    refine ⟨hlast, ?_, hi.move (by simpa [NaNFree] using hw) hlast⟩
    exact coveredAfter_cons.2 ⟨fun last hl h => absurd h (hdrop last hl), coveredAfter_nil _⟩

theorem walk_covered {p : Path} (hi : Invariant done d) (hp : NaNFree p)
    (hdrops : p.IsChain fun last w => ¬ Drops last w)
    (hhead : ∀ w ∈ p.head?, ∀ last ∈ done.getLast?, ¬ Drops last w) :
    CoveredAfter done (walk drillStep d p) ∧ NaNFree (done ++ walk drillStep d p) := by
  induction p generalizing done d with
  | nil => exact ⟨coveredAfter_nil done, by simpa using hi.numbers⟩
  | cons w p ih =>
    obtain ⟨⟨v, hv, hpoint⟩, hstep, hi'⟩ :=
      step_preserves_invariant hi (hp w (by simp)) (hhead w rfl)
    obtain ⟨hnext, htail⟩ := List.isChain_cons.1 hdrops
    have hhead' : ∀ x ∈ p.head?, ∀ last ∈ (done ++ (drillStep d w).2).getLast?,
        ¬ Drops last x := by
      intro x hx last hlast hdrop
      rw [List.getLast?_append, Option.mem_def.1 hv] at hlast
      cases hlast
      refine hnext x hx ⟨hdrop.rapid, hdrop.deep, ?_⟩
      rw [← hpoint]
      exact hdrop.lower
    obtain ⟨hrest, hnumbers⟩ := ih hi' (fun x hx => hp x (by simp [hx])) htail hhead'
    rw [walk_cons]
    exact ⟨coveredAfter_append.2 ⟨hstep, hrest⟩, by simpa using hnumbers⟩

end Drilled

variable {p : Path}

theorem drill_covered (hp : NaNFree p) (hdrops : p.IsChain fun last w => ¬ Drops last w) :
    NaNFree (drill p) ∧ CoveredAfter [] (drill p) := by
  have hinitial : Drilled.Invariant [] { last := .origin, depths := ∅ } :=
    ⟨by simp [NaNFree], by simp, by simp⟩
  obtain ⟨hcovered, hnumbers⟩ := Drilled.walk_covered hinitial hp hdrops (by simp)
  exact ⟨hnumbers, hcovered⟩

end Toolpath.Path
