import Toolpath.Path.Adjustment
import Toolpath.Path.Homing
import Toolpath.Path.Retraction
import Toolpath.Proofs.Number.Nearness
import Toolpath.Proofs.Path.Edits
import Toolpath.Proofs.Path.Redrilling
import Toolpath.Proofs.Path.SafeTravel

/-!
# Coordinates that are numbers

No pass makes a coordinate that is not a number, but for a safety height that is none itself.
-/

namespace Toolpath.Path

open Toolpath.Geometry (Point)

variable {p q : Path}

theorem NaNFree.of_points (hp : NaNFree p) (h : ∀ w ∈ q, ∃ v ∈ p, w.point = v.point) :
    NaNFree q := by
  intro w hw
  obtain ⟨v, hv, hpoint⟩ := h w hw
  rw [hpoint]
  exact hp v hv

theorem NaNFree.mono (hp : NaNFree p) (h : ∀ w ∈ q, w ∈ p) : NaNFree q :=
  hp.of_points fun w hw => ⟨w, h w hw, rfl⟩

theorem NaNFree.drill (hp : NaNFree p) : NaNFree (drill p) := by
  intro v hv
  rw [drill_eq_redrill] at hv
  obtain ⟨w, hw, hx, hy, u, hu, hz⟩ := levels_of_mem_redrill hv
  obtain ⟨hwx, hwy, -⟩ := Point.hasNaN_eq_false.1 (hp w hw)
  exact Point.hasNaN_eq_false.2 ⟨hx ▸ hwx, hy ▸ hwy, hz ▸ hp.z hu⟩

theorem NaNFree.route {tolerance : Float} (hp : NaNFree p) (h : route tolerance p = .ok q) :
    NaNFree q := by
  obtain ⟨π, hplan, rfl⟩ := plan_of_route h
  obtain ⟨t, -, hplanned⟩ := plan_spec hp hplan
  exact fun w hw => (hplanned.path_under hp w hw).1

theorem NaNFree.lift (hp : NaNFree p) : NaNFree (lift p) := by
  refine forall_mem_walk (fun last w hw v hv => ?_) hp Point.origin
  obtain rfl := List.mem_singleton.1 hv
  split <;> exact hw

theorem NaNFree.swapXY (hp : NaNFree p) : NaNFree (swapXY p) := by
  intro v hv
  obtain ⟨w, hw, rfl⟩ := List.mem_map.1 hv
  obtain ⟨hx, hy, hz⟩ := Point.hasNaN_eq_false.1 (hp w hw)
  exact Point.hasNaN_eq_false.2 ⟨hy, hx, hz⟩

theorem NaNFree.mapModal (hp : NaNFree p) (f : Modal → Modal) : NaNFree (mapModal f p) := by
  refine hp.of_points fun v hv => ?_
  obtain ⟨w, hw, rfl⟩ := List.mem_map.1 hv
  exact ⟨w, hw, rfl⟩

theorem NaNFree.scaleMoves (hp : NaNFree p) {factor : Float} (hpos : 0 < factor)
    (hfin : factor.isFinite = true) : NaNFree (scaleMoves factor p) := by
  intro v hv
  obtain ⟨w, hw, rfl⟩ := List.mem_map.1 hv
  obtain ⟨hx, hy, hz⟩ := Point.hasNaN_eq_false.1 (hp w hw)
  exact Point.hasNaN_eq_false.2
    ⟨Number.isNaN_mul hx hpos hfin, Number.isNaN_mul hy hpos hfin, Number.isNaN_mul hz hpos hfin⟩

section SafetyPlane

variable {old new : Float}

theorem NaNFree.moveLevels (hp : NaNFree p) (hnew : new.isNaN = false) (last : Point) :
    NaNFree (walk (moveLevel old new) last p) := by
  refine forall_mem_walk (fun last w hw v hv => ?_) hp last
  obtain ⟨hx, hy, -⟩ := Point.hasNaN_eq_false.1 hw
  obtain rfl := List.mem_singleton.1 hv
  split
  · exact Point.hasNaN_eq_false.2 ⟨hx, hy, hnew⟩
  · exact hw

/-- The safety pass gives the waypoint after `last` a new height. -/
def ChangesLevel (old : Float) (last w : Waypoint) : Prop :=
  (w.point.z == old && (w.point.sameXY last.point || last.point.z == old)) = true

theorem nanFree_moveLevels_iff (hp : NaNFree p) (hnew : new.isNaN = true) (last : Waypoint) :
    NaNFree (walk (moveLevel old new) last.point p) ↔
      (last :: p).IsChain fun v w => ¬ ChangesLevel old v w := by
  induction p generalizing last with
  | nil => simp [NaNFree]
  | cons w p ih =>
    rw [walk_cons, List.isChain_cons_cons, ← ih (fun v hv => hp v (by simp [hv]))]
    by_cases h : ChangesLevel old last w
    · have hout : (moveLevel old new last.point w).2 = [w.withZ new] :=
        congrArg (fun u => [u]) (if_pos h)
      have hnan : (w.withZ new).point.hasNaN = true := by
        simp only [Point.hasNaN, Waypoint.withZ, Waypoint.withPoint, hnew, Bool.or_true]
      rw [hout]
      refine iff_of_false (fun hall => ?_) fun hnot => hnot.1 h
      rw [hall (w.withZ new) (by simp)] at hnan
      cases hnan
    · have hout : (moveLevel old new last.point w).2 = [w] :=
        congrArg (fun u => [u]) (if_neg h)
      rw [hout, and_iff_right h]
      simp only [NaNFree, List.forall_mem_append, List.forall_mem_singleton]
      exact and_iff_right (hp w (by simp))

theorem eq_of_setSafetyHeight (h : setSafetyHeight new p = .ok q) :
    q = walk (moveLevel (safetyHeight p) new) .origin p := by
  unfold setSafetyHeight at h
  split at h
  · cases h
  · exact (Except.ok.inj h).symm

end SafetyPlane

section Homing

theorem map_point_mapLast {f : Waypoint → Waypoint} (hf : ∀ w, (f w).point = w.point) (p : Path) :
    (mapLast f p).map (·.point) = p.map (·.point) := by
  unfold mapLast
  split
  · rfl
  · rename_i last hlast
    obtain ⟨front, rfl⟩ := List.getLast?_eq_some_iff.1 hlast
    simp [hf]

theorem nanFree_mapLast {f : Waypoint → Waypoint} (hf : ∀ w, (f w).point = w.point) (p : Path) :
    NaNFree (mapLast f p) ↔ NaNFree p := by
  have hpoints : ∀ q : Path, NaNFree q ↔ ∀ a ∈ q.map (·.point), a.hasNaN = false := by
    simp [NaNFree]
  rw [hpoints, hpoints, map_point_mapLast hf]

theorem nanFree_homeward {height : Float} (hheight : height.isNaN = false) {last : Waypoint}
    (hlast : last.point.hasNaN = false) : NaNFree (homeward height last) := by
  have hwithZ : ∀ {v : Waypoint} {z : Float}, v.point.hasNaN = false → z.isNaN = false →
      (v.withZ z).point.hasNaN = false := fun hv hz =>
    have ⟨hx, hy, _⟩ := Point.hasNaN_eq_false.1 hv
    Point.hasNaN_eq_false.2 ⟨hx, hy, hz⟩
  have hwithXY : ∀ {v : Waypoint}, v.point.hasNaN = false →
      (v.withXY 0 0).point.hasNaN = false := fun hv =>
    have ⟨_, _, hz⟩ := Point.hasNaN_eq_false.1 hv
    Point.hasNaN_eq_false.2 ⟨Number.isNaN_zero, Number.isNaN_zero, hz⟩
  have hhere : (last.withMotion .rapid).point.hasNaN = false := hlast
  unfold NaNFree homeward
  dsimp only
  split
  · simpa using hwithZ hhere Number.isNaN_zero
  · simp only [List.forall_mem_append, List.forall_mem_singleton]
    split
    · refine ⟨⟨by simp, hwithXY hhere⟩, ?_⟩
      split
      · simp
      · simpa using hwithZ (hwithXY hhere) Number.isNaN_zero
    · have hlifted := hwithZ hhere hheight
      refine ⟨⟨by simpa using hlifted, hwithXY hlifted⟩, ?_⟩
      split
      · simp
      · simpa using hwithZ (hwithXY hlifted) Number.isNaN_zero

theorem nanFree_returnHome_iff (s : Shutdown) : NaNFree (returnHome s p) ↔ NaNFree p := by
  have hkeeps : ∀ w, (s.apply w).point = w.point := fun _ => rfl
  unfold returnHome
  split
  · exact Iff.rfl
  · rename_i last hlast
    split
    · exact nanFree_mapLast hkeeps p
    · have happend : ∀ q r : Path, NaNFree (q ++ r) ↔ NaNFree q ∧ NaNFree r := fun q r =>
        List.forall_mem_append
      rw [happend, nanFree_mapLast hkeeps]
      exact and_iff_left_of_imp fun hp =>
        nanFree_homeward (isNaN_safetyHeight _) (hp last (List.mem_of_getLast? hlast))

end Homing

end Toolpath.Path
