import Mathlib.Data.List.Induction
import Toolpath.Path.SafetyPlane
import Toolpath.Proofs.Geometry.Point

/-!
# The highest level

The safety height of a path is zero or the level of one of its waypoints, and no waypoint of a path
without NaN lies above it.
-/

namespace Toolpath.Path

open Number (rank larger larger_eq rank_larger)

def NaNFree (p : Path) : Prop := ∀ w ∈ p, w.point.hasNaN = false

theorem NaNFree.z {p : Path} (h : NaNFree p) {w : Waypoint} (hw : w ∈ p) :
    w.point.z.isNaN = false := (Geometry.Point.hasNaN_eq_false.1 (h w hw)).2.2

theorem highest_concat (zs : List Float) (z : Float) :
    highest (zs ++ [z]) = larger (highest zs) z := by
  simp [highest]

theorem highest_eq (zs : List Float) : highest zs = 0 ∨ highest zs ∈ zs := by
  induction zs using List.reverseRecOn with
  | nil => exact .inl rfl
  | append_singleton zs z ih =>
    rw [highest_concat, List.mem_append, List.mem_singleton]
    rcases larger_eq (highest zs) z with h | h <;> rw [h]
    · exact ih.imp_right .inl
    · exact .inr (.inr rfl)

theorem isNaN_highest (zs : List Float) : (highest zs).isNaN = false := by
  induction zs using List.reverseRecOn with
  | nil => exact Number.isNaN_zero
  | append_singleton zs z ih =>
    rw [highest_concat]
    exact Number.isNaN_larger ih z

theorem rank_highest {zs : List Float} (hzs : ∀ z ∈ zs, z.isNaN = false) :
    0 ≤ rank (highest zs) ∧ ∀ z ∈ zs, rank z ≤ rank (highest zs) := by
  induction zs using List.reverseRecOn with
  | nil => simp [highest]
  | append_singleton zs z ih =>
    rw [List.forall_mem_append, List.forall_mem_singleton] at hzs
    obtain ⟨h0, hle⟩ := ih hzs.1
    rw [highest_concat, rank_larger (isNaN_highest zs) hzs.2]
    refine ⟨le_max_of_le_left h0, fun y hy => ?_⟩
    rcases List.mem_append.1 hy with hy | hy
    · exact le_max_of_le_left (hle y hy)
    · rw [List.mem_singleton.1 hy]
      exact le_max_right _ _

theorem mem_levels {p : Path} {z : Float} : z ∈ levels p ↔ ∃ w ∈ p, w.point.z = z := List.mem_map

theorem isNaN_of_mem_levels {p : Path} (hp : NaNFree p) : ∀ z ∈ levels p, z.isNaN = false := by
  intro z hz
  obtain ⟨w, hw, rfl⟩ := mem_levels.1 hz
  exact hp.z hw

theorem safetyHeight_concat (p : Path) (w : Waypoint) :
    safetyHeight (p ++ [w]) = larger (safetyHeight p) w.point.z := by
  simp [safetyHeight, levels, highest_concat]

theorem safetyHeight_eq (p : Path) :
    safetyHeight p = 0 ∨ ∃ w ∈ p, w.point.z = safetyHeight p := by
  rw [← mem_levels]
  exact highest_eq (levels p)

theorem isNaN_safetyHeight (p : Path) : (safetyHeight p).isNaN = false := isNaN_highest _

theorem rank_safetyHeight {p : Path} (hp : NaNFree p) :
    0 ≤ rank (safetyHeight p) ∧ ∀ w ∈ p, rank w.point.z ≤ rank (safetyHeight p) := by
  obtain ⟨h0, hle⟩ := rank_highest (isNaN_of_mem_levels hp)
  exact ⟨h0, fun w hw => hle _ (mem_levels.2 ⟨w, hw, rfl⟩)⟩

theorem map_modal_moveLevels (old new : Float) (last : Geometry.Point) (p : Path) :
    (walk (moveLevel old new) last p).map (·.modal) = p.map (·.modal) := by
  induction p generalizing last with
  | nil => rfl
  | cons w p ih =>
    rw [walk_cons, List.map_append, ih, moveLevel, List.map_cons]
    split <;> rfl

end Toolpath.Path
