import Toolpath.Proofs.Path.LevelOrder

/-!
# The last safety height

A new safety height takes all waypoints on the old plane along if the tool reaches each of them
straight or along the plane. The new plane then holds the same waypoints, above the same lower
levels, so that only the height that is set last counts.
-/

namespace Toolpath.Path

open Toolpath.Geometry (Point)
open Number (rank lt_iff beq_iff)

def OnPlane (p : Path) (w : Waypoint) : Prop := (w.point.z == safetyHeight p) = true

instance (p : Path) (w : Waypoint) : Decidable (OnPlane p w) :=
  inferInstanceAs (Decidable ((w.point.z == safetyHeight p) = true))

/-- The tool comes to each waypoint on the safety plane straight or along the plane. The point
before the first one is the origin. -/
def ReachesPlane (p : Path) : Prop :=
  (Waypoint.initial :: p).IsChain fun v w =>
    OnPlane p w → w.point.sameXY v.point = true ∨ OnPlane p v

instance (p : Path) : Decidable (ReachesPlane p) :=
  inferInstanceAs (Decidable (List.IsChain _ _))

def StartsOverOrigin (p : Path) : Prop := ∀ w ∈ p.head?, w.point.sameXY .origin = true

instance (p : Path) : Decidable (StartsOverOrigin p) :=
  inferInstanceAs (Decidable (∀ w ∈ p.head?, w.point.sameXY .origin = true))

def raisePlane (p : Path) (height : Float) (w : Waypoint) : Waypoint :=
  if OnPlane p w then w.withZ height else w

variable {p q : Path} {height : Float} {v w : Waypoint}

section Raising

theorem raisePlane_of_on (h : OnPlane p w) (height : Float) :
    raisePlane p height w = w.withZ height := if_pos h

theorem raisePlane_of_off (h : ¬ OnPlane p w) (height : Float) : raisePlane p height w = w :=
  if_neg h

theorem sameXY_raisePlane (p : Path) (height : Float) (v w : Waypoint) :
    (raisePlane p height w).point.sameXY (raisePlane p height v).point =
      w.point.sameXY v.point := by
  unfold raisePlane
  split <;> split <;> rfl

theorem moveLevels_of_chain {last : Waypoint} {r : Path} (height : Float)
    (h : (last :: r).IsChain fun v w =>
      OnPlane p w → w.point.sameXY v.point = true ∨ OnPlane p v) :
    walk (moveLevel (safetyHeight p) height) last.point r = r.map (raisePlane p height) := by
  induction r generalizing last with
  | nil => rfl
  | cons w r ih =>
    obtain ⟨hw, hr⟩ := List.isChain_cons_cons.1 h
    have hout : (moveLevel (safetyHeight p) height last.point w).2 = [raisePlane p height w] := by
      by_cases hon : OnPlane p w
      · have hmoves : (w.point.z == safetyHeight p &&
            (w.point.sameXY last.point || last.point.z == safetyHeight p)) = true := by
          have hcomes := hw hon
          unfold OnPlane at hon hcomes
          simp [hon, hcomes]
        simp only [moveLevel, hmoves, if_true, raisePlane_of_on hon]
      · have hstays : (w.point.z == safetyHeight p) = false := Bool.not_eq_true _ ▸ hon
        simp only [moveLevel, hstays, Bool.false_and, Bool.false_eq_true, if_false,
          raisePlane_of_off hon]
    rw [walk_cons, hout, List.map_cons, List.singleton_append]
    exact congrArg _ (ih hr)

theorem setSafetyHeight_eq (h : ReachesPlane p) (height : Float) : setSafetyHeight height p =
    if height ≤ nextLevel p then .error (.heightTooLow (nextLevel p))
    else .ok (p.map (raisePlane p height)) := by
  rw [setSafetyHeight, ← moveLevels_of_chain height h]
  rfl

theorem map_raisePlane_of_off (h : ∀ w ∈ p, ¬ OnPlane p w) (height : Float) :
    p.map (raisePlane p height) = p := by
  conv_rhs => rw [← List.map_id p]
  exact List.map_congr_left fun w hw => raisePlane_of_off (h w hw) height

end Raising

section Raised

theorem off_of_lt_safetyHeight (hlt : w.point.z < safetyHeight p) : ¬ OnPlane p w := by
  intro hon
  have hsame := (beq_iff.1 hon).2.2
  have hless := (lt_iff.1 hlt).2.2
  omega

variable (hp : NaNFree p)
include hp

theorem lt_safetyHeight_iff (hw : w ∈ p) : w.point.z < safetyHeight p ↔ ¬ OnPlane p w := by
  constructor
  · exact off_of_lt_safetyHeight
  · intro hoff
    have hle := (rank_safetyHeight hp).2 w hw
    have hne : rank w.point.z ≠ rank (safetyHeight p) := fun heq =>
      hoff (beq_iff.2 ⟨hp.z hw, isNaN_safetyHeight _, heq⟩)
    exact lt_iff.2 ⟨hp.z hw, isNaN_safetyHeight _, by omega⟩

variable (habove : nextLevel p < height)
include habove

theorem lt_of_off (hw : w ∈ p) (hoff : ¬ OnPlane p w) : w.point.z < height := by
  have hlow := (lt_safetyHeight_iff hp hw).2 hoff
  have hle := (isGreatest_nextLevel hp).2 (.inr ⟨mem_levels.2 ⟨w, hw, rfl⟩, hlow⟩)
  exact Number.lt_of_le_of_lt hle habove

theorem pos_of_above : 0 < height :=
  Number.lt_of_le_of_lt ((isGreatest_nextLevel hp).2 (.inl rfl)) habove

theorem nanFree_raised : NaNFree (p.map (raisePlane p height)) := by
  intro v hv
  obtain ⟨w, hw, rfl⟩ := List.mem_map.1 hv
  obtain ⟨hx, hy, -⟩ := Point.hasNaN_eq_false.1 (hp w hw)
  by_cases hon : OnPlane p w
  · rw [raisePlane_of_on hon]
    exact Point.hasNaN_eq_false.2 ⟨hx, hy, (lt_iff.1 habove).2.1⟩
  · rw [raisePlane_of_off hon]
    exact hp w hw

variable (hused : ∃ w ∈ p, OnPlane p w)
include hused

/-- The new height is the highest level of the raised path, as nothing else comes up to it. -/
theorem safetyHeight_raised :
    (safetyHeight (p.map (raisePlane p height)) == height) = true := by
  have hq := nanFree_raised hp habove
  obtain ⟨hfloor, hbelow⟩ := rank_safetyHeight hq
  have hpos := (lt_iff.1 (pos_of_above hp habove)).2.2
  rw [Number.rank_zero] at hpos
  have hreaches : rank height ≤ rank (safetyHeight (p.map (raisePlane p height))) := by
    obtain ⟨w, hw, hon⟩ := hused
    have hin := hbelow _ (List.mem_map_of_mem hw)
    rwa [raisePlane_of_on hon] at hin
  refine beq_iff.2 ⟨isNaN_safetyHeight _, (lt_iff.1 habove).2.1, ?_⟩
  rcases safetyHeight_eq (p.map (raisePlane p height)) with hzero | ⟨v, hv, htop⟩
  · rw [hzero, Number.rank_zero] at hreaches
    omega
  · obtain ⟨w, hw, rfl⟩ := List.mem_map.1 hv
    by_cases hon : OnPlane p w
    · rw [← htop, raisePlane_of_on hon]
      rfl
    · have hlt := (lt_iff.1 (lt_of_off hp habove hw hon)).2.2
      rw [← htop, raisePlane_of_off hon] at hreaches
      omega

theorem onPlane_raised_iff (hw : w ∈ p) :
    OnPlane (p.map (raisePlane p height)) (raisePlane p height w) ↔ OnPlane p w := by
  have htop := safetyHeight_raised hp habove hused
  constructor
  · intro hraised
    by_contra hoff
    rw [raisePlane_of_off hoff] at hraised
    have hsame := (beq_iff.1 (Number.beq_trans hraised htop)).2.2
    have hlt := (lt_iff.1 (lt_of_off hp habove hw hoff)).2.2
    omega
  · intro hon
    rw [raisePlane_of_on hon]
    exact Number.beq_symm htop

theorem nextLevel_raised : nextLevel (p.map (raisePlane p height)) = nextLevel p := by
  have hq := nanFree_raised hp habove
  have hsplit : p.filter (fun w => (raisePlane p height w).point.z <
      safetyHeight (p.map (raisePlane p height))) = p.filter fun w => w.point.z < safetyHeight p := by
    refine List.filter_congr fun w hw => decide_eq_decide.2 ?_
    rw [lt_safetyHeight_iff hp hw, ← onPlane_raised_iff hp habove hused hw]
    exact lt_safetyHeight_iff hq (List.mem_map_of_mem hw)
  have hlower : (levels (p.map (raisePlane p height))).filter
      (· < safetyHeight (p.map (raisePlane p height))) =
        (levels p).filter (· < safetyHeight p) := by
    unfold levels
    rw [List.map_map, List.filter_map, List.filter_map]
    refine (congrArg _ hsplit).trans (List.map_congr_left fun w hw => ?_)
    have hlt : w.point.z < safetyHeight p := by simpa using (List.mem_filter.1 hw).2
    exact congrArg (fun v => v.point.z) (raisePlane_of_off (off_of_lt_safetyHeight hlt) height)
  exact congrArg highest hlower

theorem reachesPlane_raised (hstart : StartsOverOrigin p) (h : ReachesPlane p) :
    ReachesPlane (p.map (raisePlane p height)) := by
  have hstep : ∀ v ∈ p, ∀ w ∈ p, (OnPlane p w → w.point.sameXY v.point = true ∨ OnPlane p v) →
      OnPlane (p.map (raisePlane p height)) (raisePlane p height w) →
        (raisePlane p height w).point.sameXY (raisePlane p height v).point = true ∨
          OnPlane (p.map (raisePlane p height)) (raisePlane p height v) := by
    intro v hv w hw hcomes hon
    rw [onPlane_raised_iff hp habove hused hw] at hon
    rw [sameXY_raisePlane, onPlane_raised_iff hp habove hused hv]
    exact hcomes hon
  cases p with
  | nil => exact .singleton _
  | cons w r =>
    obtain ⟨-, hr⟩ := List.isChain_cons_cons.1 h
    refine List.isChain_cons_cons.2 ⟨fun _ => .inl ?_, ?_⟩
    · have hplace := hstart w rfl
      by_cases hon : OnPlane (w :: r) w
      · rwa [raisePlane_of_on hon]
      · rwa [raisePlane_of_off hon]
    · rw [← List.map_cons, List.isChain_map]
      exact hr.imp_of_mem_imp fun v w hv hw hcomes => hstep v hv w hw hcomes

end Raised

/-- Only the height that is set last counts, for the path and for the refusal. -/
theorem setSafetyHeight_overrides {first : Float} (hp : NaNFree p) (hstart : StartsOverOrigin p)
    (hreach : ReachesPlane p) (hfirst : first.isNaN = false) (h : setSafetyHeight first p = .ok q)
    (second : Float) : setSafetyHeight second q = setSafetyHeight second p := by
  have habove : nextLevel p < first := by
    refine Number.lt_of_not_le hfirst (isNaN_nextLevel p) fun hlow => ?_
    rw [setSafetyHeight_eq_error.2 ⟨hlow, rfl⟩] at h
    cases h
  obtain rfl : q = p.map (raisePlane p first) := by
    rw [eq_of_setSafetyHeight h]
    exact moveLevels_of_chain first hreach
  by_cases hused : ∃ w ∈ p, OnPlane p w
  · have hagain : (p.map (raisePlane p first)).map
        (raisePlane (p.map (raisePlane p first)) second) = p.map (raisePlane p second) := by
      rw [List.map_map]
      refine List.map_congr_left fun w hw => ?_
      have hraised := onPlane_raised_iff hp habove hused hw
      by_cases hon : OnPlane p w
      · rw [Function.comp, raisePlane_of_on (hraised.2 hon), raisePlane_of_on hon,
          raisePlane_of_on hon]
        rfl
      · rw [Function.comp, raisePlane_of_off (mt hraised.1 hon), raisePlane_of_off hon,
          raisePlane_of_off hon]
    rw [setSafetyHeight_eq (reachesPlane_raised hp habove hused hstart hreach), hagain,
      nextLevel_raised hp habove hused, setSafetyHeight_eq hreach]
  · -- Nothing is on the plane of a path that stays below Z0.
    rw [map_raisePlane_of_off fun w hw hon => hused ⟨w, hw, hon⟩]

/-- A groove and the way between its ends along Z0, which is the safety plane. -/
def groove : Path :=
  [.initial, ⟨{ Modal.initial with motion := .rapid }, ⟨10, 0, 0⟩⟩,
    ⟨{ Modal.initial with motion := .linear }, ⟨10, 0, -1⟩⟩,
    ⟨{ Modal.initial with motion := .linear }, ⟨20, 0, -1⟩⟩,
    ⟨{ Modal.initial with motion := .rapid }, ⟨20, 0, 0⟩⟩]

theorem groove_overrides : NaNFree groove ∧ StartsOverOrigin groove ∧ ReachesPlane groove ∧
    (5 : Float).isNaN = false ∧ ∃ q, setSafetyHeight 5 groove = .ok q ∧
      setSafetyHeight 3 q = setSafetyHeight 3 groove := by
  have hp : NaNFree groove := by
    unfold NaNFree groove
    decide
  have hstart : StartsOverOrigin groove := by decide
  have hreach : ReachesPlane groove := by decide
  have hset : setSafetyHeight 5 groove =
      .ok (walk (moveLevel (safetyHeight groove) 5) .origin groove) := if_neg (by decide)
  have hnumber : (5 : Float).isNaN = false := by decide
  exact ⟨hp, hstart, hreach, hnumber, _, hset,
    setSafetyHeight_overrides hp hstart hreach hnumber hset 3⟩

end Toolpath.Path
