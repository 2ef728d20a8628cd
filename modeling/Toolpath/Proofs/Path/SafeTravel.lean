import Toolpath.Proofs.Path.Legs

/-!
# Safe travel

A routed path goes up and down only straight, travels at rapid speed only at the safety height, and
ends there with a lift. Its safety height is that of the path before.
-/

namespace Toolpath.Path

open Toolpath.Geometry (Point)
open Number (rank lt_iff le_iff beq_iff)

/-- A step that cannot run into the part. -/
structure Safe (height : Float) (a b : Waypoint) : Prop where
  straight : (b.point.z == a.point.z) = true ∨ b.point.sameXY a.point = true
  travel : b.motion = .rapid → b.point.sameXY a.point = false → b.point.z = height

theorem Admissible.safe {a b : Waypoint} (h : Admissible a b) (hb : b.below = true)
    (height : Float) : Safe height a b where
  straight := h.straight
  travel hm hxy := by simp [h.cutting hb hm] at hxy

theorem Safe.of_sameXY {height : Float} {a b : Waypoint} (h : b.point.sameXY a.point = true) :
    Safe height a b where
  straight := .inr h
  travel _ hxy := by simp [h] at hxy

theorem Safe.of_level {height : Float} {a b : Waypoint} (hz : (b.point.z == a.point.z) = true)
    (hm : b.motion = .rapid → b.point.z = height) : Safe height a b where
  straight := .inl hz
  travel h _ := hm h

theorem Safe.congr {height : Float} {a a' b : Waypoint} (h : Safe height a b)
    (ha : a.point = a'.point) : Safe height a' b where
  straight := ha ▸ h.straight
  travel := ha ▸ h.travel

namespace Travel

variable {t : Travel} {last : Waypoint} {g : Group}

theorem cut_leg_safe (hg : g.toList.IsChain Admissible) (hb : ∀ w ∈ g.toList, w.below = true) :
    (t.leg last g).cut.IsChain (Safe t.safetyHeight) := by
  have hsafe : g.toList.IsChain (Safe t.safetyHeight) :=
    hg.imp_of_mem_tail_imp fun a b _ hmem hab => hab.safe (hb b (List.mem_of_mem_tail hmem)) _
  unfold Leg.cut
  rw [group_leg]
  exact hsafe.imp_head fun h => h.congr (point_entry_leg t last g).symm

theorem leg_safe (hlast : last.point.hasNaN = false) (hh : t.safetyHeight.isNaN = false)
    (hentry : g.entry.point.hasNaN = false) (hg : g.toList.IsChain Admissible)
    (hb : ∀ w ∈ g.toList, w.below = true) :
    (last :: (t.leg last g).toList).IsChain (Safe t.safetyHeight) := by
  have hcut : (t.leg last g).cut.IsChain (Safe t.safetyHeight) := cut_leg_safe hg hb
  have hz := (Point.hasNaN_eq_false.1 hlast).2.2
  have hxy := Point.sameXY_refl hlast
  have hxy' := Point.sameXY_refl hentry
  unfold Leg.toList
  simp only [leg] at hcut ⊢
  split
  · rename_i hnear
    rw [if_pos hnear] at hcut
    split
    · rename_i hsame
      exact hcut.cons_of_ne_nil (by simp [Leg.cut]) (.of_sameXY (Point.sameXY_symm hsame))
    · refine .cons_cons (.of_level (Number.beq_self hz) fun hm => by cases hm) ?_
      exact hcut.cons_of_ne_nil (by simp [Leg.cut]) (.of_sameXY hxy')
  · rename_i hfar
    rw [if_neg hfar] at hcut
    refine .cons_cons (.of_sameXY hxy) (.cons_cons (.of_level (Number.beq_self hh) fun _ => rfl) ?_)
    exact hcut.cons_of_ne_nil (by simp [Leg.cut]) (.of_sameXY hxy')

theorem legs_safe {gs : List Group} (hlast : last.point.hasNaN = false)
    (hh : t.safetyHeight.isNaN = false) (hgs : ∀ g ∈ gs, g.toList.IsChain Admissible ∧
      (∀ w ∈ g.toList, w.below = true) ∧ ∀ w ∈ g.toList, w.point.hasNaN = false) :
    (last :: (t.legs last gs).flatMap Leg.toList).IsChain (Safe t.safetyHeight) := by
  induction gs generalizing last with
  | nil => exact .singleton last
  | cons g gs ih =>
    obtain ⟨hchain, hbelow, hnumber⟩ := hgs g (by simp)
    have hleg := leg_safe hlast hh (hnumber g.entry (by simp [Group.toList])) hchain hbelow
    have hend : (t.leg last g).last.point.hasNaN = false := by
      rw [point_last_leg]
      exact hnumber _ g.last_mem
    have hrest := ih hend fun g hg => hgs g (by simp [hg])
    rw [legs_cons, List.flatMap_cons, ← List.cons_append]
    obtain ⟨hhead, htail⟩ := List.isChain_cons.1 hrest
    refine hleg.append htail fun a ha => ?_
    rw [List.getLast?_cons, Leg.getLast?_toList] at ha
    cases ha
    exact hhead

end Travel

/-- A waypoint that is somewhere and not above a height. -/
def Under (height : Float) (w : Waypoint) : Prop :=
  w.point.hasNaN = false ∧ rank w.point.z ≤ rank height

theorem Travel.leg_under {t : Travel} {last : Waypoint} {g : Group}
    (hlast : Under t.safetyHeight last) (hh : t.safetyHeight.isNaN = false)
    (hg : ∀ w ∈ g.toList, Under t.safetyHeight w) :
    ∀ w ∈ (t.leg last g).toList, Under t.safetyHeight w := by
  have hentry := hg g.entry (by simp [Group.toList])
  have hrest : ∀ w ∈ g.rest, Under t.safetyHeight w := fun w hw => hg w (by simp [Group.toList, hw])
  obtain ⟨hex, hey, hez⟩ := Point.hasNaN_eq_false.1 hentry.1
  obtain ⟨hlx, hly, hlz⟩ := Point.hasNaN_eq_false.1 hlast.1
  intro w hw
  simp only [Leg.toList, leg, Leg.cut] at hw
  split at hw
  · simp only [List.append_nil, List.mem_append, List.mem_cons] at hw
    rcases hw with hw | rfl | hw
    · split at hw
      · cases hw
      · obtain rfl := List.mem_singleton.1 hw
        exact ⟨Point.hasNaN_eq_false.2 ⟨hex, hey, hlz⟩, hlast.2⟩
    · exact hentry
    · exact hrest w hw
  · simp only [Option.toList_none, List.nil_append, List.cons_append, List.mem_cons] at hw
    rcases hw with rfl | rfl | rfl | hw
    · exact ⟨Point.hasNaN_eq_false.2 ⟨hlx, hly, hh⟩, le_rfl⟩
    · exact ⟨Point.hasNaN_eq_false.2 ⟨hex, hey, hh⟩, le_rfl⟩
    · exact hentry
    · exact hrest w hw

theorem Travel.legs_under {t : Travel} {last : Waypoint} {gs : List Group}
    (hlast : Under t.safetyHeight last) (hh : t.safetyHeight.isNaN = false)
    (hgs : ∀ g ∈ gs, ∀ w ∈ g.toList, Under t.safetyHeight w) :
    ∀ w ∈ (t.legs last gs).flatMap Leg.toList, Under t.safetyHeight w := by
  induction gs generalizing last with
  | nil => simp
  | cons g gs ih =>
    have hleg := leg_under hlast hh (hgs g (by simp))
    have hend : Under t.safetyHeight (t.leg last g).last :=
      hleg _ (List.mem_of_getLast? (Leg.getLast?_toList _))
    intro w hw
    rw [legs_cons, List.flatMap_cons, List.mem_append] at hw
    rcases hw with hw | hw
    · exact hleg w hw
    · exact ih hend (fun g hg => hgs g (by simp [hg])) w hw

namespace Planned

variable {p : Path} {t : Travel} {π : Plan}

theorem body_under (h : Planned p t π) (hp : NaNFree p) :
    ∀ w ∈ π.body, Under (safetyHeight p) w := by
  have hin : ∀ w ∈ p, Under (safetyHeight p) w := fun w hw =>
    ⟨hp w hw, (rank_safetyHeight hp).2 w hw⟩
  have hstart := hin _ h.start_mem
  intro w hw
  unfold Plan.body at hw
  rcases List.mem_cons.1 hw with rfl | hw
  · exact hstart
  · rw [h.legs] at hw
    rw [← h.travel] at hin hstart ⊢
    refine Travel.legs_under hstart (h.travel ▸ isNaN_safetyHeight _) (fun g hg v hv => ?_) w hw
    obtain ⟨l, hl, rfl⟩ := List.mem_map.1 hg
    exact hin v ((h.group hl).2.2 v hv)

theorem path_under (h : Planned p t π) (hp : NaNFree p) :
    ∀ w ∈ π.path, Under (safetyHeight p) w := by
  obtain ⟨last, hlast, -, hlift⟩ := h.lift_eq
  have hunder := h.body_under hp last (List.mem_of_getLast? hlast)
  obtain ⟨hx, hy, -⟩ := Point.hasNaN_eq_false.1 hunder.1
  intro w hw
  unfold Plan.path at hw
  rw [hlift] at hw
  rcases List.mem_append.1 hw with hw | hw
  · exact h.body_under hp w hw
  · obtain rfl := List.mem_singleton.1 hw
    exact ⟨Point.hasNaN_eq_false.2 ⟨hx, hy, isNaN_safetyHeight _⟩, le_rfl⟩

theorem path_safe (h : Planned p t π) (hp : NaNFree p) :
    π.path.IsChain (Safe (safetyHeight p)) := by
  obtain ⟨last, hlast, -, hlift⟩ := h.lift_eq
  have hbody : π.body.IsChain (Safe (safetyHeight p)) := by
    unfold Plan.body
    rw [h.legs, ← h.travel]
    refine Travel.legs_safe (hp _ h.start_mem) (h.travel ▸ isNaN_safetyHeight _) fun g hg => ?_
    obtain ⟨l, hl, rfl⟩ := List.mem_map.1 hg
    obtain ⟨hchain, hbelow, hmem⟩ := h.group hl
    exact ⟨hchain, hbelow, fun w hw => hp w (hmem w hw)⟩
  have hxy := Point.sameXY_refl (h.body_under hp last (List.mem_of_getLast? hlast)).1
  unfold Plan.path
  rw [hlift]
  refine hbody.append (.singleton _) fun a ha b hb => ?_
  rw [hlast] at ha
  cases ha
  cases hb
  exact .of_sameXY hxy

theorem safetyHeight_path (h : Planned p t π) (hp : NaNFree p) :
    safetyHeight π.path = safetyHeight p := by
  obtain ⟨last, -, -, hlift⟩ := h.lift_eq
  have hunder := h.path_under hp
  have hq : NaNFree π.path := fun w hw => (hunder w hw).1
  have hpositive := (lt_iff.1 h.positive).2.2
  have htop : rank (safetyHeight p) ≤ rank (safetyHeight π.path) :=
    (rank_safetyHeight hq).2 ((last.withZ (safetyHeight p)).withMotion .rapid) (by
      simp [Plan.path, hlift])
  have hle : rank (safetyHeight π.path) ≤ rank (safetyHeight p) := by
    rcases safetyHeight_eq π.path with h0 | ⟨w, hw, hz⟩
    · rw [h0]
      exact hpositive.le
    · rw [← hz]
      exact (hunder w hw).2
  refine Number.eq_of_rank_eq (le_antisymm hle htop) ?_
  simp only [Number.rank_zero] at hpositive
  omega

end Planned

/-- What routing promises of a path `q` made from `p`. The last waypoint is a lift. -/
structure SafelyRouted (p q : Path) : Prop where
  steps : q.IsChain (Safe (safetyHeight p))
  lift : ∃ front last, q = front ++ [last, (last.withZ (safetyHeight p)).withMotion .rapid] ∧
    last.point.z < safetyHeight p
  attained : ∃ w ∈ p, w.point.z = safetyHeight p
  greatest : ∀ w ∈ p, w.point.z ≤ safetyHeight p
  start : q.head? = p.head?
  height : safetyHeight q = safetyHeight p

theorem route_safely {p q : Path} {tolerance : Float} (hp : NaNFree p)
    (h : route tolerance p = .ok q) : SafelyRouted p q := by
  obtain ⟨π, hplan, rfl⟩ := plan_of_route h
  obtain ⟨t, -, hπ⟩ := plan_spec hp hplan
  have hnumber := isNaN_safetyHeight p
  exact {
    steps := hπ.path_safe hp
    lift := by
      obtain ⟨last, hlast, hlow, hlift⟩ := hπ.lift_eq
      obtain ⟨front, hfront⟩ := List.getLast?_eq_some_iff.1 hlast
      exact ⟨front, last, by simp [Plan.path, hfront, hlift], hlow⟩
    attained := by
      rcases safetyHeight_eq p with h0 | hw
      · have hpositive := (lt_iff.1 hπ.positive).2.2
        rw [h0] at hpositive
        exact absurd hpositive (lt_irrefl _)
      · exact hw
    greatest := fun w hw => le_iff.2 ⟨hp.z hw, hnumber, (rank_safetyHeight hp).2 w hw⟩
    start := by simp [hπ.start, Plan.path, Plan.body]
    height := hπ.safetyHeight_path hp }

theorem twoHoles_routed_safely : NaNFree twoHoles ∧ ∃ q, route 2 twoHoles = .ok q ∧
    SafelyRouted twoHoles q := by
  have hp : NaNFree twoHoles := nanFree_twoHoles
  have hq := route_of_plan plan_twoHoles
  exact ⟨hp, _, hq, route_safely hp hq⟩

end Toolpath.Path
