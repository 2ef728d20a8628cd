import Toolpath.Path.Simplification
import Toolpath.Path.Straight
import Toolpath.Proofs.Path.Symmetry

/-!
# Adjusted settings

The passes that rewrite moves look at points and motions. Settings that are changed without regard
to the motion can be changed before such a pass or after it: no pass mixes the settings of two
waypoints.
-/

namespace Toolpath.Path

open Toolpath.Geometry (Point)

section Kept

variable {change : Waypoint → Waypoint}

def Straightening.changed (change : Waypoint → Waypoint) (s : Straightening) : Straightening :=
  { s with kept := s.kept.map change }

def Simplification.changed (change : Waypoint → Waypoint) (s : Simplification) :
    Simplification :=
  { s with kept := s.kept.map change }

theorem Straightening.step_changed (h : Symmetry id change) (s : Straightening) (w : Waypoint) :
    (s.changed change).step (change w) = (s.step w).changed change := by
  have hheading : ∀ g, (s.changed change).continues g = s.continues g := fun _ => rfl
  have hlast : (s.changed change).last = s.last := rfl
  simp only [step, h.motion, h.point, id, hheading, hlast]
  by_cases htravels : w.motion.travels = true
  · simp only [if_pos htravels]
    split
    · rfl
    · split
      · simp only [changed, List.map_cons, List.map_tail]
      · rfl
  · simp only [if_neg htravels]
    rfl

theorem Simplification.step_changed (h : Symmetry id change) (tolerance : Float)
    (s : Simplification) (w : Waypoint) :
    (s.changed change).step tolerance (change w) = (s.step tolerance w).changed change := by
  have hwindow : ∀ m, (s.changed change).windowFor m = s.windowFor m := fun _ => rfl
  simp only [step, h.motion, h.point, id, hwindow]
  by_cases htravels : w.motion.travels = true
  · simp only [if_pos htravels]
    split
    · simp only [changed, List.map_cons, List.map_tail]
    · rfl
  · simp only [if_neg htravels]
    rfl

theorem Symmetry.straighten_map (h : Symmetry id change) (p : Path) :
    straighten (p.map change) = (straighten p).map change := by
  have hinitial : Straightening.initial.changed change = .initial := rfl
  have hfold : (p.map change).foldl Straightening.step (Straightening.initial.changed change) =
      (p.foldl Straightening.step .initial).changed change := by
    rw [List.foldl_map]
    exact List.foldl_hom _ (Straightening.step_changed h)
  rw [straighten, ← hinitial, hfold, straighten, List.map_reverse, Straightening.changed]

theorem Symmetry.simplify_map (h : Symmetry id change) (tolerance : Float) (p : Path) :
    simplify tolerance (p.map change) = (simplify tolerance p).map change := by
  have hinitial : Simplification.initial.changed change = .initial := rfl
  have hfold : (p.map change).foldl (Simplification.step tolerance)
      (Simplification.initial.changed change) =
        (p.foldl (Simplification.step tolerance) .initial).changed change := by
    rw [List.foldl_map]
    exact List.foldl_hom _ (Simplification.step_changed h tolerance)
  rw [simplify, ← hinitial, hfold, simplify, List.map_reverse, Simplification.changed]

end Kept

section Settings

variable {f : Modal → Modal}

/-- A change of settings that neither makes another motion nor looks at the motion. -/
def SparesMotion (f : Modal → Modal) : Prop :=
  ∀ (m : Modal) (motion : Motion), f { m with motion } = { f m with motion }

theorem SparesMotion.motion (hf : SparesMotion f) (m : Modal) : (f m).motion = m.motion := by
  have hsame := congrArg Modal.motion (hf m m.motion)
  exact hsame

theorem SparesMotion.symmetry (hf : SparesMotion f) :
    Symmetry id fun w => { w with modal := f w.modal } where
  point _ := rfl
  motion w := hf.motion w.modal
  withZ _ _ := rfl
  withMotion w m := congrArg (Waypoint.mk · w.point) (hf w.modal m)
  level _ := rfl
  place _ _ := rfl
  origin := rfl

/-- Adjusts the settings of every waypoint and spares its motion. -/
def Adjusts (g : Path → Path) : Prop := ∃ f, SparesMotion f ∧ ∀ p, g p = mapModal f p

theorem adjusts_limitFeedrate (ceiling : Float) : Adjusts (limitFeedrate ceiling) := by
  refine ⟨_, fun m motion => ?_, fun _ => rfl⟩
  by_cases hfast : ceiling < m.feedrate
  · simp [hfast]
  · simp [hfast]

theorem adjusts_scaleFeedrate (factor : Float) : Adjusts (scaleFeedrate factor) :=
  ⟨_, fun _ _ => rfl, fun _ => rfl⟩

theorem adjusts_forceSpindle (s : Spindle) : Adjusts (forceSpindle s) :=
  ⟨_, fun _ _ => rfl, fun _ => rfl⟩

/-- Settings may be adjusted before a pass or after it. Limiting and scaling the feedrates and
forcing the spindle are adjustments. -/
theorem adjusted_passes : (∀ ceiling, Adjusts (limitFeedrate ceiling)) ∧
    (∀ factor, Adjusts (scaleFeedrate factor)) ∧ (∀ s, Adjusts (forceSpindle s)) ∧
    ∀ g, Adjusts g → ∀ p, drill (g p) = g (drill p) ∧ lift (g p) = g (lift p) ∧
      straighten (g p) = g (straighten p) ∧
      (∀ tolerance, simplify tolerance (g p) = g (simplify tolerance p)) ∧
      ∀ height, setSafetyHeight height (g p) = (setSafetyHeight height p).map g := by
  refine ⟨adjusts_limitFeedrate, adjusts_scaleFeedrate, adjusts_forceSpindle, ?_⟩
  rintro g ⟨f, hf, hg⟩ p
  obtain rfl := funext hg
  have hs := hf.symmetry
  exact ⟨hs.drill_map p, hs.lift_map p, hs.straighten_map p, fun t => hs.simplify_map t p,
    fun height => hs.setSafetyHeight_map height p⟩

theorem reamedHole_adjusted : Adjusts (limitFeedrate 60) ∧
    drill (limitFeedrate 60 reamedHole) = limitFeedrate 60 (drill reamedHole) ∧
    lift (limitFeedrate 60 reamedHole) = limitFeedrate 60 (lift reamedHole) ∧
    straighten (limitFeedrate 60 reamedHole) = limitFeedrate 60 (straighten reamedHole) ∧
    simplify 1 (limitFeedrate 60 reamedHole) = limitFeedrate 60 (simplify 1 reamedHole) ∧
    setSafetyHeight 7 (limitFeedrate 60 reamedHole) =
      (setSafetyHeight 7 reamedHole).map (limitFeedrate 60) := by
  obtain ⟨hlimit, -, -, hpasses⟩ := adjusted_passes
  obtain ⟨hdrill, hlift, hstraighten, hsimplify, hheight⟩ := hpasses _ (hlimit 60) reamedHole
  exact ⟨hlimit 60, hdrill, hlift, hstraighten, hsimplify 1, hheight 7⟩

end Settings

end Toolpath.Path
