import Toolpath.Proofs.Path.Drilling
import Toolpath.Proofs.Path.Plunges

/-!
# The memory of drilling

The depths that drilling remembers are what the path so far says of each place, so a map keyed by
bits and the history under numerical equality lead to the same path. Drilling its result once more
changes nothing.
-/

namespace Toolpath.Path

open Toolpath.Geometry (Point)
open Number (beq_iff smaller)

theorem plunges_iff {last : Point} {w : Waypoint} : plunges last w = true ↔ Plunge last w := by
  unfold plunges
  simp only [Bool.and_eq_true, decide_eq_true_eq, beq_iff_eq]
  constructor
  · rintro ⟨⟨straight, down⟩, linear⟩
    exact ⟨linear, straight, down⟩
  · rintro ⟨linear, straight, down⟩
    exact ⟨⟨straight, down⟩, linear⟩

theorem isNaN_of_mem_plungesAt {here : Point} {p : Path} :
    ∀ z ∈ (plungesAt here p).map (·.point.z), z.isNaN = false := by
  intro z hz
  obtain ⟨u, hu, rfl⟩ := List.mem_map.1 hz
  obtain ⟨before, -, hplunge, -⟩ := mem_plungesAt.1 hu
  exact (Point.hasNaN_eq_false.1 hplunge.number).2.2

theorem deepest?_concat_of_not {here : Point} {p : Path} {w : Waypoint}
    (h : ¬ (Plunge (endPoint p) w ∧ w.point.sameXY here = true)) :
    deepest? here (p ++ [w]) = deepest? here p := by
  unfold deepest?
  rw [plungesAt_concat, if_neg h, List.append_nil]

theorem deepest?_concat {here : Point} {p : Path} {w : Waypoint} (h : Plunge (endPoint p) w)
    (hxy : w.point.sameXY here = true) :
    deepest? here (p ++ [w]) = some (match deepest? here p with
      | some depth => smaller depth w.point.z
      | none => w.point.z) := by
  unfold deepest?
  rw [plungesAt_concat, if_pos ⟨h, hxy⟩, List.map_append, List.map_singleton]
  exact lowest?_concat (Point.hasNaN_eq_false.1 h.number).2.2 isNaN_of_mem_plungesAt

namespace Drilled

structure Recalls (d : Drilled) (before : Path) : Prop where
  last : d.last = endPoint before
  depths : ∀ here : Point, here.hasNaN = false → d.depth? here = deepest? here before

variable {before : Path} {d : Drilled} {w : Waypoint}

theorem initial_recalls : Recalls { last := .origin, depths := ∅ } [] where
  last := rfl
  depths here _ := by simp [depth?, deepest?, lowest?]

theorem Recalls.travel (h : d.Recalls before) (hw : ¬ Plunge (endPoint before) w) :
    Recalls { d with last := w.point } (before ++ [w]) where
  last := (endPoint_concat before w).symm
  depths here hhere := by
    rw [deepest?_concat_of_not fun hplunge => hw hplunge.1]
    exact h.depths here hhere

theorem Recalls.deepen (h : d.Recalls before) (hw : Plunge (endPoint before) w) :
    (d.deepen w.point).Recalls (before ++ [w]) where
  last := (endPoint_concat before w).symm
  depths here hhere := by
    have hold := h.depths here hhere
    simp only [depth?, Drilled.deepen] at hold ⊢
    rw [Std.HashMap.getElem?_insert]
    by_cases hxy : w.point.sameXY here = true
    · rw [site_eq_of_sameXY hxy, beq_self_eq_true, if_pos rfl, deepest?_concat hw hxy]
      exact hold ▸ rfl
    · have hsite : ¬ (site w.point == site here) = true := fun hs =>
        hxy (sameXY_of_site_eq hw.number hhere (eq_of_beq hs))
      rw [if_neg hsite, hold, deepest?_concat_of_not fun hplunge => hxy hplunge.2]

theorem step_recalls (h : d.Recalls before) (w : Waypoint) :
    (drillStep d w).2 = redrilled before w ∧ (drillStep d w).1.Recalls (before ++ [w]) := by
  unfold drillStep redrilled
  rw [h.last]
  by_cases hw : Plunge (endPoint before) w
  · rw [if_pos (plunges_iff.2 hw), if_pos hw]
    refine ⟨?_, h.deepen hw⟩
    unfold Path.plunge
    exact h.depths w.point hw.number ▸ rfl
  · rw [if_neg (fun hp => hw (plunges_iff.1 hp)), if_neg hw]
    exact ⟨rfl, h.travel hw⟩

end Drilled

theorem drill_eq_redrill (p : Path) : drill p = redrill p := by
  unfold drill redrill histories
  rw [← walk_histories redrilled]
  exact walk_eq_of_related (R := Drilled.Recalls) (fun _ _ w h => Drilled.step_recalls h w)
    Drilled.initial_recalls p

/-- The history alone says what drilling does. The box stays, and the feedrates unless one of them is
not a number, which would be listed each time. -/
theorem drill_by_history (p : Path) : drill p = redrill p ∧
    Option.Rel Extent.SameBox (extent? (drill p)) (extent? p) ∧
    ((∀ w ∈ p, w.modal.feedrate.isNaN = false) →
      (extent? (drill p)).map (·.feedrates) = (extent? p).map (·.feedrates)) := by
  rw [drill_eq_redrill]
  exact ⟨rfl, extent?_same (sameLevels_redrill p), map_feedrates_redrill⟩

def withTool (tool : UInt32) (m : Motion) (z : Float) : Waypoint :=
  ⟨{ Modal.initial with motion := m, feedrate := 100, tool }, ⟨0, 0, z⟩⟩

/-- A hole drilled with the first tool, and the second tool above it. -/
def pilotHole : Path :=
  [.initial, withTool 1 .rapid 5, withTool 1 .linear (-2), withTool 2 .rapid 5]

def reamedHole : Path := pilotHole ++ [withTool 2 .linear (-1), withTool 2 .rapid 5]

theorem reamedHole_by_history : (∀ w ∈ reamedHole, w.modal.feedrate.isNaN = false) ∧
    (extent? (drill reamedHole)).map (·.feedrates) = (extent? reamedHole).map (·.feedrates) := by
  have hfeed : ∀ w ∈ reamedHole, w.modal.feedrate.isNaN = false := by
    unfold reamedHole
    decide
  obtain ⟨-, -, hfeedrates⟩ := drill_by_history reamedHole
  exact ⟨hfeed, hfeedrates hfeed⟩

/-- The waypoint `v` was made a rapid one, or put in as one, when drilling came to `w`. -/
structure Hastened (p before : Path) (w v : Waypoint) : Prop where
  step : (before, w) ∈ histories p
  written : v ∈ redrilled before w
  rapid : v.motion = .rapid
  other : w.motion ≠ .rapid

theorem drill_hastens_over_plunges (p : Path) : drill p = redrill p ∧
    ∀ before w v, Hastened p before w v →
      ∃ u ∈ plungesAt v.point before, u.point.z ≤ v.point.z := by
  refine ⟨drill_eq_redrill p, fun before w v h => ?_⟩
  obtain ⟨-, hx, hy, -⟩ := mem_redrilled h.written
  rcases cleared_of_mem_redrilled h.written with rfl | hcleared
  · exact absurd h.rapid h.other
  · rwa [plungesAt_congr hx hy]

theorem redrilled_reamedHole :
    redrilled pilotHole (withTool 2 .linear (-1)) = [withTool 2 .rapid (-1)] :=
  rfl

theorem plungesAt_reamedHole :
    plungesAt (withTool 2 .rapid (-1)).point pilotHole = [withTool 1 .linear (-2)] :=
  rfl

theorem reamedHole_hastened : Hastened reamedHole pilotHole (withTool 2 .linear (-1))
    (withTool 2 .rapid (-1)) where
  step := mem_histories.2 ⟨[withTool 2 .rapid 5], rfl⟩
  written := redrilled_reamedHole ▸ List.mem_singleton_self _
  rapid := rfl
  other := by decide

/-- The second tool goes down at rapid speed where only the first has been. -/
theorem reamedHole_other_tool :
    drill reamedHole = pilotHole ++ [withTool 2 .rapid (-1), withTool 2 .rapid 5] ∧
    ∃ before w v, Hastened reamedHole before w v ∧ ∀ u ∈ plungesAt v.point before,
      ¬ (u.point.z ≤ v.point.z ∧ u.modal.tool = v.modal.tool) := by
  refine ⟨(drill_eq_redrill reamedHole).trans rfl, _, _, _, reamedHole_hastened, ?_⟩
  rw [plungesAt_reamedHole]
  intro u hu
  obtain rfl := List.mem_singleton.1 hu
  decide

theorem reamedHole_over_pilot : ∃ v, v ∈ drill reamedHole ∧ v.motion = .rapid ∧
    ∃ u ∈ plungesAt v.point pilotHole, u.point.z ≤ v.point.z := by
  obtain ⟨hdrill, hover⟩ := drill_hastens_over_plunges reamedHole
  have hmem := mem_redrill.2 ⟨_, _, reamedHole_hastened.step, reamedHole_hastened.written⟩
  rw [← hdrill] at hmem
  exact ⟨_, hmem, rfl, hover _ _ _ reamedHole_hastened⟩

namespace Drilled

/-- The same place and numerically the same depths. Zeros may differ in sign. -/
structure Alike (d e : Drilled) : Prop where
  last : d.last = e.last
  depths : ∀ s : Site, Option.Rel (fun a b : Float => (a == b) = true) d.depths[s]? e.depths[s]?

variable {d e : Drilled} {a b : Float} {w : Waypoint}

theorem initial_alike : Alike { last := .origin, depths := ∅ } { last := .origin, depths := ∅ } where
  last := rfl
  depths s := by
    rw [Std.HashMap.getElem?_empty]
    exact .none

theorem Alike.symm (h : Alike d e) : Alike e d where
  last := h.last.symm
  depths s := by
    have hrel := h.depths s
    generalize d.depths[s]? = x at hrel ⊢
    generalize e.depths[s]? = y at hrel ⊢
    cases hrel with
    | none => exact .none
    | some hab => exact .some (Number.beq_symm hab)

theorem Alike.move (h : Alike d e) (p : Point) :
    Alike { d with last := p } { e with last := p } where
  last := rfl
  depths := h.depths

theorem Alike.insert (h : Alike d e) (hab : (a == b) = true) (p : Point) (s : Site) :
    Alike { last := p, depths := d.depths.insert s a }
      { last := p, depths := e.depths.insert s b } where
  last := rfl
  depths t := by
    rw [Std.HashMap.getElem?_insert, Std.HashMap.getElem?_insert]
    split
    · exact .some hab
    · exact h.depths t

theorem Alike.insert_left (h : Alike d e) {s : Site} (hb : e.depths[s]? = some b)
    (hab : (a == b) = true) (p : Point) :
    Alike { last := p, depths := d.depths.insert s a } { e with last := p } where
  last := rfl
  depths t := by
    rw [Std.HashMap.getElem?_insert]
    split
    · rename_i hs
      obtain rfl := eq_of_beq hs
      rw [hb]
      exact .some hab
    · exact h.depths t

theorem Alike.depth? (h : Alike d e) (p : Point) :
    Option.Rel (fun a b : Float => (a == b) = true) (d.depth? p) (e.depth? p) :=
  h.depths (site p)

theorem deepen_of_some {p : Point} (h : d.depth? p = some a) :
    d.deepen p = { last := p, depths := d.depths.insert (site p) (smaller a p.z) } := by
  simp only [Drilled.deepen, h]

theorem Alike.deepen (h : Alike d e) {p : Point} (hp : p.hasNaN = false) :
    Alike (d.deepen p) (e.deepen p) := by
  refine h.insert ?_ p (site p)
  have hz : (p.z == p.z) = true := Number.beq_self (Point.hasNaN_eq_false.1 hp).2.2
  have hrel := h.depth? p
  generalize d.depth? p = x at hrel ⊢
  generalize e.depth? p = y at hrel ⊢
  cases hrel with
  | none => exact hz
  | some hab => exact Number.beq_smaller hab p.z

/-- All that drilling can do with a waypoint. -/
inductive Effect (d : Drilled) (w : Waypoint) : Drilled × List Waypoint → Prop where
  | travel (h : ¬ Plunge d.last w) : Effect d w ({ d with last := w.point }, [w])
  | fed (h : Plunge d.last w) (habove : ∀ depth ∈ d.depth? w.point, d.last.z ≤ depth) :
    Effect d w (d.deepen w.point, [w])
  | cleared {depth : Float} (h : Plunge d.last w) (hdepth : d.depth? w.point = some depth)
    (hstart : ¬ d.last.z ≤ depth) (hz : depth ≤ w.point.z) :
    Effect d w (d.deepen w.point, [w.withMotion .rapid])
  | deeper {depth : Float} (h : Plunge d.last w) (hdepth : d.depth? w.point = some depth)
    (hstart : ¬ d.last.z ≤ depth) (hz : ¬ depth ≤ w.point.z) :
    Effect d w (d.deepen w.point, [(w.withZ depth).withMotion .rapid, w])

theorem step_eq_iff {r : Drilled × List Waypoint} : drillStep d w = r ↔ Effect d w r := by
  unfold drillStep Path.plunge
  constructor
  · rintro rfl
    split
    · rename_i hw
      have hw := plunges_iff.1 hw
      split
      · rename_i hnone
        exact .fed hw (by simp [hnone])
      · rename_i depth hdepth
        split
        · rename_i hstart
          exact .fed hw (by simpa [hdepth] using hstart)
        · split
          · exact .cleared hw hdepth ‹_› ‹_›
          · exact .deeper hw hdepth ‹_› ‹_›
    · rename_i hw
      exact .travel fun hp => hw (plunges_iff.2 hp)
  · intro h
    cases h with
    | travel h => rw [if_neg fun hp => h (plunges_iff.1 hp)]
    | fed h habove =>
      rw [if_pos (plunges_iff.2 h)]
      cases hdepth : d.depth? w.point with
      | none => rfl
      | some depth => simp only [if_pos (habove depth hdepth)]
    | cleared h hdepth hstart hz =>
      rw [if_pos (plunges_iff.2 h), hdepth]
      simp only [if_neg hstart, if_pos hz]
    | deeper h hdepth hstart hz =>
      rw [if_pos (plunges_iff.2 h), hdepth]
      simp only [if_neg hstart, if_neg hz]

theorem not_plunge_rapid (last : Point) (w : Waypoint) : ¬ Plunge last (w.withMotion .rapid) := by
  intro h
  cases h.linear

theorem Alike.exists_depth (h : Alike d e) {p : Point} (hd : d.depth? p = some a) :
    ∃ b, e.depth? p = some b ∧ (a == b) = true := by
  have hrel := h.depth? p
  rw [hd] at hrel
  generalize e.depth? p = y at hrel ⊢
  cases hrel with
  | some hab => exact ⟨_, rfl, hab⟩

/-- What drilling has written stays as it is, and the same depths are remembered for it. -/
theorem step_again (h : Alike d e) (w : Waypoint) :
    walk drillStep e (drillStep d w).2 = (drillStep d w).2 ∧
      Alike (drillStep d w).1 (memory drillStep e (drillStep d w).2) := by
  have hrapid : ∀ {d : Drilled} {v : Waypoint}, drillStep d (v.withMotion .rapid) =
      ({ d with last := v.point }, [v.withMotion .rapid]) :=
    step_eq_iff.2 (.travel (not_plunge_rapid _ _))
  generalize hr : drillStep d w = r
  cases step_eq_iff.1 hr with
  | travel hw =>
    have hagain := step_eq_iff.2 (.travel (h.last ▸ hw) : Effect e w _)
    simpa [hagain] using h.move w.point
  | fed hw habove =>
    have hagain : drillStep e w = (e.deepen w.point, [w]) := by
      refine step_eq_iff.2 (.fed (h.last ▸ hw) fun b hb => ?_)
      obtain ⟨a, ha, hba⟩ := h.symm.exists_depth hb
      exact h.last ▸ Number.le_of_le_of_beq (habove a ha) (Number.beq_symm hba)
    simpa [hagain] using h.deepen hw.number
  | cleared hw hdepth hstart hz =>
    obtain ⟨b, hb, hab⟩ := h.exists_depth hdepth
    have hkept := Number.beq_trans (Number.smaller_beq_of_le hz) hab
    have hdeepen := h.insert_left hb hkept w.point
    rw [deepen_of_some hdepth]
    simpa [hrapid] using hdeepen
  | deeper hw hdepth hstart hz =>
    rename_i depth
    obtain ⟨b, hb, hab⟩ := h.exists_depth hdepth
    have hlower : w.point.z < depth :=
      Number.lt_of_not_le (beq_iff.1 hab).1 (Point.hasNaN_eq_false.1 hw.number).2.2 hz
    -- the rapid part ends at the remembered depth, so the rest of the plunge begins there
    have hagain : drillStep { e with last := (w.withZ depth).point } w =
        (e.deepen w.point, [w]) := by
      refine step_eq_iff.2 (.fed (hw.below hlower) fun c hc => ?_)
      obtain rfl := Option.some.inj (hb.symm.trans hc)
      exact Number.le_of_beq hab
    simpa [hrapid, hagain] using h.deepen hw.number

end Drilled

theorem drill_drill (p : Path) : drill (drill p) = drill p :=
  walk_walk_of_related (R := Drilled.Alike) (fun _ _ w h => Drilled.step_again h w)
    Drilled.initial_alike p

end Toolpath.Path
