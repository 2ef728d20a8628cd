import Mathlib.Order.Bounds.Defs
import Toolpath.Proofs.Path.Numbers

/-!
# The order of levels

A new safety height is refused exactly if it is not above all levels below the old one. Setting it
changes no level but the highest, so no waypoint comes to lie on the other side of another.
-/

namespace Toolpath.Path

open Number (rank lt_iff le_iff beq_iff)

def lowerLevels (p : Path) : Set Float := {z | z = 0 ∨ z ∈ levels p ∧ z < safetyHeight p}

/-- The waypoint stays as it is, or it is at the old height and comes to the new one. -/
def Releveled (old new : Float) (v w : Waypoint) : Prop :=
  w = v ∨ (v.point.z == old) = true ∧ w = v.withZ new

variable {p q : Path} {height : Float}

section Highest

theorem isGreatest_highest {zs : List Float} (hzs : ∀ z ∈ zs, z.isNaN = false) :
    IsGreatest {z | z = 0 ∨ z ∈ zs} (highest zs) := by
  refine ⟨highest_eq zs, ?_⟩
  obtain ⟨h0, hle⟩ := rank_highest hzs
  have hnumber := isNaN_highest zs
  rintro z (rfl | hz)
  · exact le_iff.2 ⟨Number.isNaN_zero, hnumber, by simpa using h0⟩
  · exact le_iff.2 ⟨hzs z hz, hnumber, hle z hz⟩

theorem isNaN_nextLevel (p : Path) : (nextLevel p).isNaN = false := isNaN_highest _

theorem isGreatest_nextLevel (hp : NaNFree p) : IsGreatest (lowerLevels p) (nextLevel p) := by
  have hlower : lowerLevels p = {z | z = 0 ∨ z ∈ (levels p).filter (· < safetyHeight p)} := by
    simp [lowerLevels, List.mem_filter]
  rw [hlower]
  exact isGreatest_highest fun z hz => isNaN_of_mem_levels hp z (List.mem_filter.1 hz).1

theorem setSafetyHeight_eq_error {e : Refusal} : setSafetyHeight height p = .error e ↔
    height ≤ nextLevel p ∧ e = .heightTooLow (nextLevel p) := by
  rw [setSafetyHeight]
  by_cases hlow : height ≤ nextLevel p
  · simp [hlow, eq_comm]
  · simp [hlow]

end Highest

section Order

theorem forall₂_moveLevels (old new : Float) (p : Path) :
    List.Forall₂ (Releveled old new) p (walk (moveLevel old new) .origin p) := by
  have hstep : ∀ last w, ∃ v, (moveLevel old new last w).2 = [v] ∧ Releveled old new w v := by
    intro last w
    refine ⟨_, rfl, ?_⟩
    split
    · rename_i hmoves
      exact .inr ⟨(Bool.and_eq_true_iff.1 hmoves).1, rfl⟩
    · exact .inl rfl
  exact forall₂_walk hstep .origin p

/-- A level below another one is below the old height, and so it stays and is below the new height
too. -/
theorem Releveled.level_lt {lower : Float} (hp : NaNFree p)
    (hlower : IsGreatest (lowerLevels p) lower) (habove : lower < height) {v v' w w' : Waypoint}
    (hv : v ∈ p) (hv' : v' ∈ p) (hw : Releveled (safetyHeight p) height v w)
    (hw' : Releveled (safetyHeight p) height v' w') (hlt : v.point.z < v'.point.z) :
    w.point.z < w'.point.z := by
  have htop := (rank_safetyHeight hp).2 v' hv'
  have hlow : v.point.z < safetyHeight p := by
    rw [lt_iff] at hlt ⊢
    exact ⟨hlt.1, isNaN_safetyHeight _, hlt.2.2.trans_le htop⟩
  have hstays : w = v := by
    refine hw.resolve_right fun hmoves => ?_
    have hsame := (beq_iff.1 hmoves.1).2.2
    have hless := (lt_iff.1 hlow).2.2
    omega
  rw [hstays]
  rcases hw' with rfl | ⟨-, rfl⟩
  · exact hlt
  · have hle : v.point.z ≤ lower := hlower.2 (.inr ⟨mem_levels.2 ⟨v, hv, rfl⟩, hlow⟩)
    exact Number.lt_of_le_of_lt hle habove

/-- A height is refused exactly if some lower level reaches it. What is set otherwise changes the
highest level alone, and two waypoints at different levels keep their order. -/
theorem setSafetyHeight_keeps_order (hp : NaNFree p) (hheight : height.isNaN = false) :
    (∃ lower, IsGreatest (lowerLevels p) lower ∧ ∀ e, setSafetyHeight height p = .error e ↔
      height ≤ lower ∧ e = .heightTooLow lower) ∧
    ∀ q, setSafetyHeight height p = .ok q →
      List.Forall₂ (Releveled (safetyHeight p) height) p q ∧
      ∀ a ∈ p.zip q, ∀ b ∈ p.zip q, a.1.point.z < b.1.point.z → a.2.point.z < b.2.point.z := by
  have hlower := isGreatest_nextLevel hp
  refine ⟨⟨nextLevel p, hlower, fun _ => setSafetyHeight_eq_error⟩, ?_⟩
  intro q hq
  obtain rfl := eq_of_setSafetyHeight hq
  have hmoved := forall₂_moveLevels (safetyHeight p) height p
  have habove : nextLevel p < height := by
    refine Number.lt_of_not_le hheight (isNaN_nextLevel p) fun hlow => ?_
    rw [setSafetyHeight_eq_error.2 ⟨hlow, rfl⟩] at hq
    cases hq
  refine ⟨hmoved, ?_⟩
  rintro ⟨v, w⟩ ha ⟨v', w'⟩ hb hlt
  exact Releveled.level_lt hp hlower habove (List.of_mem_zip ha).1 (List.of_mem_zip hb).1
    (List.forall₂_zip hmoved ha) (List.forall₂_zip hmoved hb) hlt

def steppedPocket : Path :=
  [.initial, ⟨{ Modal.initial with motion := .rapid }, ⟨0, 0, 5⟩⟩,
    ⟨{ Modal.initial with motion := .rapid }, ⟨10, 0, 5⟩⟩,
    ⟨{ Modal.initial with motion := .linear }, ⟨10, 0, 2⟩⟩,
    ⟨{ Modal.initial with motion := .linear }, ⟨20, 0, -1⟩⟩,
    ⟨{ Modal.initial with motion := .linear }, ⟨20, 0, 5⟩⟩]

theorem steppedPocket_keeps_order : NaNFree steppedPocket ∧ (3 : Float).isNaN = false ∧
    ∃ q, setSafetyHeight 3 steppedPocket = .ok q ∧
      List.Forall₂ (Releveled (safetyHeight steppedPocket) 3) steppedPocket q ∧
      ∀ a ∈ steppedPocket.zip q, ∀ b ∈ steppedPocket.zip q,
        a.1.point.z < b.1.point.z → a.2.point.z < b.2.point.z := by
  have hp : NaNFree steppedPocket := by
    unfold NaNFree steppedPocket
    decide
  have hset : setSafetyHeight 3 steppedPocket =
      .ok (walk (moveLevel (safetyHeight steppedPocket) 3) .origin steppedPocket) :=
    if_neg (by decide)
  exact ⟨hp, by decide, _, hset,
    (setSafetyHeight_keeps_order hp (by decide : (3 : Float).isNaN = false)).2 _ hset⟩

end Order

end Toolpath.Path
