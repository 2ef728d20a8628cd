import Mathlib.Data.List.Infix
import Toolpath.Path.Waypoint

/-!
# Drops

A drop is a move straight or slanting down at rapid speed that ends below Z0. It is covered when the
tool was at that place before and at least as deep.
-/

namespace Toolpath.Path

structure Drops (last w : Waypoint) : Prop where
  rapid : w.motion = .rapid
  deep : w.point.z < 0
  lower : w.point.z < last.point.z

instance (last w : Waypoint) : Decidable (Drops last w) :=
  decidable_of_iff (w.motion = .rapid ∧ w.point.z < 0 ∧ w.point.z < last.point.z)
    ⟨fun ⟨rapid, deep, lower⟩ => ⟨rapid, deep, lower⟩, fun h => ⟨h.rapid, h.deep, h.lower⟩⟩

theorem not_drops_of_linear {w : Waypoint} (h : w.motion = .linear) (last : Waypoint) :
    ¬ Drops last w := by
  intro hdrop
  rw [hdrop.rapid] at h
  cases h

def Covered (done : List Waypoint) (w : Waypoint) : Prop :=
  ∃ u ∈ done, u.point.sameXY w.point = true ∧ u.point.z ≤ w.point.z

instance (done : List Waypoint) (w : Waypoint) : Decidable (Covered done w) :=
  inferInstanceAs (Decidable (∃ u ∈ done, u.point.sameXY w.point = true ∧ u.point.z ≤ w.point.z))

/-- Every drop of a stretch is covered by what is done before it, in the stretch or ahead of it. -/
def CoveredAfter (done ws : List Waypoint) : Prop :=
  ∀ before w after, ws = before ++ w :: after →
    ∀ last ∈ (done ++ before).getLast?, Drops last w → Covered (done ++ before) w

theorem Covered.append {done : List Waypoint} {w : Waypoint} (h : Covered done w)
    (more : List Waypoint) : Covered (done ++ more) w := by
  obtain ⟨u, hu, hcover⟩ := h
  exact ⟨u, List.mem_append_left _ hu, hcover⟩

theorem coveredAfter_nil (done : List Waypoint) : CoveredAfter done [] := by
  intro before w after h
  simp at h

theorem coveredAfter_cons {done ws : List Waypoint} {w : Waypoint} :
    CoveredAfter done (w :: ws) ↔
      (∀ last ∈ done.getLast?, Drops last w → Covered done w) ∧ CoveredAfter (done ++ [w]) ws := by
  constructor
  · intro h
    refine ⟨by simpa using h [] w ws rfl, fun before v after hv => ?_⟩
    have hstep := h (w :: before) v after (by rw [hv, List.cons_append])
    rwa [List.append_cons] at hstep
  · rintro ⟨hw, hws⟩ before v after h
    cases before with
    | nil =>
      obtain ⟨rfl, -⟩ := List.cons.inj h
      simpa using hw
    | cons u before =>
      obtain ⟨rfl, h'⟩ := List.cons.inj h
      rw [List.append_cons]
      exact hws before v after h'

theorem coveredAfter_append {done vs ws : List Waypoint} :
    CoveredAfter done (vs ++ ws) ↔ CoveredAfter done vs ∧ CoveredAfter (done ++ vs) ws := by
  induction vs generalizing done with
  | nil => simp [coveredAfter_nil]
  | cons v vs ih =>
    rw [List.cons_append, coveredAfter_cons, coveredAfter_cons, ih, and_assoc, List.append_assoc,
      List.singleton_append]

theorem coveredAfter_of_no_drop {done ws : List Waypoint}
    (h : ∀ w ∈ ws, ∀ last, ¬ Drops last w) : CoveredAfter done ws := by
  intro before w after hw last _ hdrop
  exact absurd hdrop (h w (by simp [hw]) last)

theorem CoveredAfter.congr {done done' ws : List Waypoint} (h : CoveredAfter done ws)
    (hlast : ∀ last ∈ done'.getLast?, ∃ v ∈ done.getLast?, v.point.z = last.point.z)
    (hcover : ∀ w ∈ ws, w.point.z < 0 → Covered done w → Covered done' w) :
    CoveredAfter done' ws := by
  intro before w after hw last hl hdrop
  have hcovered : Covered (done ++ before) w := by
    rcases List.eq_nil_or_concat before with rfl | ⟨front, v, rfl⟩
    · rw [List.append_nil] at hl
      obtain ⟨v, hv, hz⟩ := hlast last hl
      refine h [] w after hw v (by simpa using hv) ⟨hdrop.rapid, hdrop.deep, ?_⟩
      exact hz ▸ hdrop.lower
    · rw [List.concat_eq_append, ← List.append_assoc, List.getLast?_concat] at hl
      refine h _ w after hw last ?_ hdrop
      rwa [List.concat_eq_append, ← List.append_assoc, List.getLast?_concat]
  obtain ⟨u, hu, hxy, hz⟩ := hcovered
  rcases List.mem_append.1 hu with hu | hu
  · exact (hcover w (by simp [hw]) hdrop.deep ⟨u, hu, hxy, hz⟩).append before
  · exact ⟨u, List.mem_append_right _ hu, hxy, hz⟩

end Toolpath.Path
