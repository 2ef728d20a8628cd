import Mathlib.Data.List.Chain
import Mathlib.Data.List.Perm.Basic
import Toolpath.Proofs.Path.Survey

/-!
# The legs of a plan

A plan visits the groups of a survey in some order, one leg a group. A leg enters its group at the
place of the group's first waypoint and then keeps to the group.
-/

namespace Toolpath.Path

open Toolpath.Geometry (Point)
open Number (rank lt_iff le_iff)

theorem nearestFirst_perm (here : Point) (groups : List Group) :
    (nearestFirst here groups).Perm groups := by
  fun_induction nearestFirst here groups with
  | case1 here => exact .nil
  | case2 here first others index g ih =>
    exact (ih.cons g).trans (List.getElem_cons_eraseIdx_perm (closest_lt here first others))

theorem nearestFirst_nil (here : Point) : nearestFirst here [] = [] := by
  rw [nearestFirst.eq_def]

theorem nearestFirst_singleton (here : Point) (g : Group) : nearestFirst here [g] = [g] := by
  rw [nearestFirst.eq_def]
  exact congrArg (g :: ·) (nearestFirst_nil _)

theorem nearestFirst_swap {here : Point} {first second : Group}
    (h : closest here first [second] = 1) :
    nearestFirst here [first, second] = [second, first] := by
  rw [nearestFirst.eq_def]
  simp only [h]
  exact congrArg (second :: ·) (nearestFirst_singleton _ first)

def Group.last (g : Group) : Waypoint := g.rest.getLastD g.entry

theorem Group.last_mem (g : Group) : g.last ∈ g.toList :=
  List.getLastD_mem_cons ..

def Waypoint.hopTo (v w : Waypoint) : Waypoint :=
  (v.withXY w.point.x w.point.y).withMotion .linear

namespace Travel

variable (t : Travel) (last : Waypoint) (g : Group)

@[simp] theorem group_leg : (t.leg last g).group = g := by
  simp only [leg]
  split <;> rfl

/-- A hop keeps to the present depth and a plunge ends where the group begins. -/
@[simp] theorem point_entry_leg : (t.leg last g).entry.point = g.entry.point := by
  simp only [leg]
  split <;> rfl

/-- A leg ends as its group does in all that its entry has kept. -/
theorem last_leg {α : Type} {f : Waypoint → α} (h : f (t.leg last g).entry = f g.entry) :
    f (t.leg last g).last = f g.last := by
  unfold Leg.last Group.last
  rw [group_leg]
  rcases List.eq_nil_or_concat g.rest with hrest | ⟨rest, w, hrest⟩
  · simpa [hrest] using h
  · simp [hrest]

theorem point_last_leg : (t.leg last g).last.point = g.last.point :=
  t.last_leg last g (t.point_entry_leg last g)

theorem hop_leg : ∀ h ∈ (t.leg last g).hop,
    h = last.hopTo (t.leg last g).entry ∧ (t.leg last g).climb = [] := by
  intro h hh
  simp only [leg] at hh ⊢
  split at hh
  · rename_i hnear
    rw [if_pos hnear]
    dsimp only at hh
    split at hh
    · cases hh
    · cases hh
      exact ⟨rfl, rfl⟩
  · cases hh

theorem climb_leg : ∀ w ∈ (t.leg last g).climb, w.point.z = t.safetyHeight := by
  intro w hw
  simp only [leg] at hw
  split at hw
  · cases hw
  · rcases List.mem_pair.1 hw with rfl | rfl <;> rfl

theorem entry_leg : (t.leg last g).entry = g.entry ∨ (t.leg last g).entry.motion = .linear := by
  simp only [leg]
  split
  · exact .inl rfl
  · exact .inr rfl

theorem map_point_cut_leg :
    (t.leg last g).cut.map (·.point) = g.toList.map (·.point) := by
  simp [Leg.cut, Group.toList]

@[simp] theorem legs_nil : t.legs last [] = [] := rfl

@[simp] theorem legs_cons (gs : List Group) :
    t.legs last (g :: gs) = t.leg last g :: t.legs (t.leg last g).last gs := by
  simp [legs, visit]

theorem map_group_legs (gs : List Group) : (t.legs last gs).map Leg.group = gs := by
  induction gs generalizing last with
  | nil => rfl
  | cons g gs ih => simp [ih]

theorem legs_split {gs : List Group} {before after : List Leg} {l : Leg}
    (h : t.legs last gs = before ++ l :: after) :
    l = t.leg ((before.getLast?.map Leg.last).getD last) l.group := by
  induction gs generalizing last before with
  | nil => simp at h
  | cons g gs ih =>
    rw [legs_cons] at h
    cases before with
    | nil =>
      obtain ⟨rfl, -⟩ := List.cons.inj h
      simp
    | cons k before =>
      obtain ⟨rfl, h'⟩ := List.cons.inj h
      have hl := ih _ h'
      rw [List.getLast?_cons]
      cases hb : before.getLast? <;> simpa [hb] using hl

end Travel

theorem Leg.getLast?_toList (l : Leg) : l.toList.getLast? = some l.last := by
  unfold Leg.toList Leg.cut Leg.last
  rw [List.getLast?_append, List.getLast?_cons, List.getLastD_eq_getLast?]
  rfl

theorem getLast?_body (start : Waypoint) (legs : List Leg) :
    (start :: legs.flatMap Leg.toList).getLast? =
      some ((legs.getLast?.map Leg.last).getD start) := by
  rcases List.eq_nil_or_concat legs with rfl | ⟨legs, l, rfl⟩
  · rfl
  · rw [List.concat_eq_append, List.flatMap_append, List.flatMap_singleton, ← List.cons_append,
      List.getLast?_append, l.getLast?_toList, List.getLast?_concat]
    rfl

/-- A plan for a path, travelled as `t` says. -/
structure Planned (p : Path) (t : Travel) (π : Plan) : Prop where
  start : p.head? = some π.start
  steps : (Waypoint.initial :: p).IsChain Admissible
  legs : π.legs = t.legs π.start (π.legs.map Leg.group)
  order : ∃ s, survey p = .ok s ∧ π.legs.map Leg.group = nearestFirst .origin s.groups
  groups : (π.legs.map (·.group.toList)).Perm (runs p)
  nonempty : π.legs ≠ []
  height : π.safetyHeight = safetyHeight p
  travel : t.safetyHeight = safetyHeight p
  positive : 0 < safetyHeight p

theorem plan_of_survey {start : Waypoint} {rest : Path} {s : Survey} (tolerance : Float)
    (h : survey (start :: rest) = .ok s) :
    plan tolerance (start :: rest) = .ok {
      start
      legs := Travel.legs ⟨s.safetyHeight, s.feedrate, tolerance⟩ start
        (nearestFirst .origin s.groups)
      safetyHeight := s.safetyHeight } := by
  simp only [plan, h, bind, Except.bind]
  rfl

theorem plan_spec {p : Path} {tolerance : Float} {π : Plan} (hp : NaNFree p)
    (h : plan tolerance p = .ok π) : ∃ t : Travel, t.tolerance = tolerance ∧ Planned p t π := by
  cases p with
  | nil => cases h
  | cons start rest =>
    cases hs : survey (start :: rest) with
    | error e => simp [plan, hs, bind, Except.bind] at h
    | ok s =>
      have hsurvey := survey_spec hp hs
      rw [plan_of_survey tolerance hs] at h
      cases h
      let t : Travel := { safetyHeight := s.safetyHeight, feedrate := s.feedrate, tolerance }
      have hperm := nearestFirst_perm .origin s.groups
      have hgroups : (t.legs start (nearestFirst .origin s.groups)).map Leg.group =
          nearestFirst .origin s.groups := Travel.map_group_legs ..
      refine ⟨t, rfl, ?_⟩
      exact {
        start := rfl
        steps := hsurvey.steps
        legs := congrArg (t.legs start) hgroups.symm
        order := ⟨s, hs, hgroups⟩
        groups := by
          rw [← hsurvey.groups, ← Function.comp_def, ← List.map_map, hgroups]
          exact hperm.map _
        nonempty := by
          intro hnil
          change t.legs start _ = [] at hnil
          rw [hnil] at hgroups
          rw [← hgroups] at hperm
          exact hsurvey.nonempty (List.nil_perm.1 hperm)
        height := hsurvey.height
        travel := hsurvey.height
        positive := hsurvey.positive }

theorem route_of_plan {p : Path} {tolerance : Float} {π : Plan} (h : plan tolerance p = .ok π) :
    route tolerance p = .ok π.path := congrArg (Except.map Plan.path) h

theorem plan_of_route {p q : Path} {tolerance : Float} (h : route tolerance p = .ok q) :
    ∃ π, plan tolerance p = .ok π ∧ q = π.path := by
  unfold route at h
  cases hplan : plan tolerance p with
  | error e =>
    rw [hplan] at h
    cases h
  | ok π =>
    rw [hplan] at h
    cases h
    exact ⟨π, rfl, rfl⟩

namespace Planned

variable {p : Path} {t : Travel} {π : Plan}

theorem start_mem (h : Planned p t π) : π.start ∈ p := List.mem_of_head? h.start

/-- A leg sets out from the end of the leg before. -/
theorem leg_eq (h : Planned p t π) {before after : List Leg} {l : Leg}
    (hl : π.legs = before ++ l :: after) :
    l = t.leg ((before.getLast?.map Leg.last).getD π.start) l.group :=
  Travel.legs_split t π.start (h.legs.symm.trans hl)

theorem exists_leg_eq (h : Planned p t π) {l : Leg} (hl : l ∈ π.legs) :
    ∃ last, l = t.leg last l.group := by
  obtain ⟨before, after, hsplit⟩ := List.append_of_mem hl
  exact ⟨_, h.leg_eq hsplit⟩

theorem group (h : Planned p t π) {l : Leg} (hl : l ∈ π.legs) :
    l.group.toList.IsChain Admissible ∧ (∀ w ∈ l.group.toList, w.below = true) ∧
      ∀ w ∈ l.group.toList, w ∈ p := by
  have hmem : l.group.toList ∈ runs p :=
    h.groups.subset (List.mem_map_of_mem (f := (·.group.toList)) hl)
  obtain ⟨before, after, hsplit⟩ := List.append_of_mem hmem
  obtain ⟨a, b, hp, -, -, hbelow, -⟩ := runs_split hsplit
  have hchain := h.steps
  rw [hp, List.append_assoc] at hchain
  refine ⟨?_, hbelow, fun w hw => by simp [hp, hw]⟩
  exact hchain.tail.right_of_append.left_of_append

theorem not_below_of_eq (h : Planned p t π) {w : Waypoint} (hw : w.point.z = safetyHeight p) :
    w.below = false := by
  have hhigh := h.positive
  have hnot : ¬ w.point.z < 0 := by
    rw [hw]
    rw [lt_iff] at hhigh ⊢
    omega
  simpa [Waypoint.below] using hnot

theorem map_point_cut (h : Planned p t π) {l : Leg} (hl : l ∈ π.legs) :
    l.cut.map (·.point) = l.group.toList.map (·.point) := by
  obtain ⟨last, hleg⟩ := h.exists_leg_eq hl
  rw [hleg, Travel.group_leg]
  exact t.map_point_cut_leg last l.group

theorem climb_not_below (h : Planned p t π) {l : Leg} (hl : l ∈ π.legs) :
    ∀ w ∈ l.climb, w.below = false := by
  obtain ⟨last, hleg⟩ := h.exists_leg_eq hl
  intro w hw
  rw [hleg] at hw
  exact h.not_below_of_eq ((t.climb_leg last _ w hw).trans h.travel)

/-- The last leg ends below Z0, so a lift follows. -/
theorem lift_eq (h : Planned p t π) :
    ∃ last, π.body.getLast? = some last ∧ last.point.z < safetyHeight p ∧
      π.lift = [(last.withZ (safetyHeight p)).withMotion .rapid] := by
  obtain ⟨legs, l, hl⟩ := List.eq_nil_or_concat π.legs |>.resolve_left h.nonempty
  have hlast : π.body.getLast? = some l.last := by
    unfold Plan.body
    rw [getLast?_body, hl]
    simp
  have hlow : l.last.point.z < safetyHeight p := by
    have hleg := h.leg_eq (hl.trans (List.concat_eq_append ..))
    obtain ⟨-, hbelow, -⟩ := h.group (l := l) (by simp [hl])
    have hdeep : l.group.last.point.z < 0 := by
      simpa [Waypoint.below] using hbelow _ l.group.last_mem
    have hhigh := h.positive
    rw [hleg, Travel.point_last_leg]
    rw [lt_iff] at hdeep hhigh ⊢
    exact ⟨hdeep.1, hhigh.2.1, by omega⟩
  refine ⟨l.last, hlast, hlow, ?_⟩
  unfold Plan.lift
  rw [List.getLastD_eq_getLast?, hlast, h.height]
  exact if_pos hlow

end Planned

def sample (m : Motion) (x z : Float) : Waypoint :=
  ⟨{ Modal.initial with motion := m, feedrate := 100 }, ⟨x, 0, z⟩⟩

/-- A hole one millimetre from the origin and one far away, the far one first. -/
def twoHoles : Path :=
  [.initial, sample .rapid 10 0, sample .linear 10 (-1), sample .rapid 10 5, sample .rapid 1 5,
    sample .linear 1 (-2), sample .rapid 1 5]

theorem nanFree_twoHoles : NaNFree twoHoles := by
  unfold NaNFree twoHoles
  decide

theorem survey_twoHoles : survey twoHoles = .ok {
    groups := [⟨sample .linear 10 (-1), []⟩, ⟨sample .linear 1 (-2), []⟩]
    safetyHeight := 5
    feedrate := 100 } := rfl

theorem plan_twoHoles : plan 2 twoHoles = .ok {
    start := .initial
    legs := [
      { group := ⟨sample .linear 1 (-2), []⟩
        hop := some ((Waypoint.initial.withXY 1 0).withMotion .linear)
        climb := []
        entry := sample .linear 1 (-2) },
      { group := ⟨sample .linear 10 (-1), []⟩
        hop := none
        climb := [sample .rapid 1 5, sample .rapid 10 5]
        entry := sample .linear 10 (-1) }]
    safetyHeight := 5 } := by
  have horder : nearestFirst .origin
      [⟨sample .linear 10 (-1), []⟩, ⟨sample .linear 1 (-2), []⟩] =
      [⟨sample .linear 1 (-2), []⟩, ⟨sample .linear 10 (-1), []⟩] := nearestFirst_swap rfl
  rw [twoHoles, plan_of_survey 2 survey_twoHoles, horder]
  rfl

end Toolpath.Path
