import Toolpath.Proofs.Path.Cuts

/-!
# What a group is cut with

A hop enters a group with the group's own spindle, coolant and tool. A plunge from the safety height
is made with those of the waypoint before it, whatever the group was to be cut with. All groups are
cut as they should be exactly if this makes no difference wherever the tool travels.
-/

namespace Toolpath.Path

structure Setup where
  spindleOn : Bool
  spindleClockwise : Bool
  spindleSpeed : Float
  mist : Bool
  flood : Bool
  tool : UInt32

def Waypoint.setup (w : Waypoint) : Setup where
  spindleOn := w.modal.spindleOn
  spindleClockwise := w.modal.spindleClockwise
  spindleSpeed := w.modal.spindleSpeed
  mist := w.modal.mist
  flood := w.modal.flood
  tool := w.modal.tool

/-- A group of the input and the waypoint by which a routed path enters it. -/
structure Visit where
  group : Group
  entry : Waypoint

def Visit.cut (v : Visit) : List Waypoint := v.entry :: v.group.rest

/-- Read without its hops, and behind its first waypoint, `q` makes these visits below Z0 and no
others. They are to the runs of `p`. -/
structure Visited (p q : Path) (visits : List Visit) : Prop where
  start : q.head? = p.head?
  runs : (visits.map (·.group.toList)).Perm (runs p)
  places : ∀ v ∈ visits, v.entry.point = v.group.entry.point
  cuts : ∃ r, WithoutHops q r ∧ r.tail.filter (·.below) = (visits.map Visit.cut).flatten

/-- A group too far away for a hop is to be cut with what `last` has. -/
def Steady (tolerance : Float) (last : Waypoint) (g : Group) : Prop :=
  ¬ last.point.lateralDistance g.entry.point < tolerance → g.entry.setup = last.setup

/-- The leg enters its group with the group's own setup. -/
def Leg.KeepsSetup (l : Leg) : Prop := l.entry.setup = l.group.entry.setup

namespace Travel

variable (t : Travel) {last before : Waypoint} {g : Group}

theorem setup_entry_leg_of_hop
    (h : last.point.lateralDistance g.entry.point < t.tolerance) :
    (t.leg last g).entry.setup = g.entry.setup := by
  simp only [leg, if_pos h]

theorem setup_entry_leg_of_climb
    (h : ¬ last.point.lateralDistance g.entry.point < t.tolerance) :
    (t.leg last g).entry.setup = last.setup := by
  simp only [leg, if_neg h]
  rfl

theorem leg_keepsSetup_iff (hpoint : last.point = before.point)
    (hsetup : last.setup = before.setup) :
    (t.leg last g).KeepsSetup ↔ Steady t.tolerance before g := by
  unfold Leg.KeepsSetup Steady
  rw [group_leg, ← hpoint, ← hsetup]
  by_cases hnear : last.point.lateralDistance g.entry.point < t.tolerance
  · simp [t.setup_entry_leg_of_hop hnear, hnear]
  · simp [t.setup_entry_leg_of_climb hnear, hnear, eq_comm]

/-- The legs set out where a waypoint of the input was, and with its setup. As long as groups are
entered with their own setups, each leg leaves the next one such a start. -/
theorem legs_keepsSetup_iff (last before : Waypoint) (groups : List Group)
    (hpoint : last.point = before.point) (hsetup : last.setup = before.setup) :
    (∀ l ∈ t.legs last groups, l.KeepsSetup) ↔
      (∀ g ∈ groups.head?, Steady t.tolerance before g) ∧
        groups.IsChain fun g h => Steady t.tolerance g.last h := by
  induction groups generalizing last before with
  | nil => simp
  | cons g groups ih =>
    rw [legs_cons, List.forall_mem_cons, t.leg_keepsSetup_iff hpoint hsetup, List.isChain_cons]
    simp only [List.head?_cons, Option.mem_some_iff, forall_eq']
    refine and_congr_right fun hsteady => ?_
    have hkept := (t.leg_keepsSetup_iff hpoint hsetup).2 hsteady
    have hlast := t.last_leg last g (f := Waypoint.setup) (by simpa [Leg.KeepsSetup] using hkept)
    exact ih _ _ (t.point_last_leg last g) hlast

end Travel

def Leg.visit (l : Leg) : Visit := ⟨l.group, l.entry⟩

theorem Planned.visited {p : Path} {t : Travel} {π : Plan} (h : Planned p t π) :
    Visited p π.path (π.legs.map Leg.visit) where
  start := h.start.symm
  runs := by simpa [List.map_map, Function.comp_def, Leg.visit] using h.groups
  places := by
    intro v hv
    obtain ⟨l, hl, rfl⟩ := List.mem_map.1 hv
    obtain ⟨last, hleg⟩ := h.exists_leg_eq hl
    rw [hleg]
    simp [Leg.visit]
  cuts := ⟨_, h.withoutHops, by
    rw [List.cons_append, List.tail_cons, h.filter_behind_start, List.map_map]
    rfl⟩

/-- Routing cuts each group with its own setup exactly if every group that is reached through the
safety height starts with the setup in which the group visited before it ended. -/
theorem route_keepsSetup_iff {p q : Path} {tolerance : Float} (hp : NaNFree p)
    (h : route tolerance p = .ok q) :
    ∃ s visits, survey p = .ok s ∧ visits.map Visit.group = nearestFirst .origin s.groups ∧
      Visited p q visits ∧
      ((∀ v ∈ visits, v.entry.setup = v.group.entry.setup) ↔
        (∀ start ∈ p.head?, ∀ g ∈ (nearestFirst .origin s.groups).head?,
          Steady tolerance start g) ∧
        (nearestFirst .origin s.groups).IsChain fun g h => Steady tolerance g.last h) := by
  obtain ⟨π, hplan, rfl⟩ := plan_of_route h
  obtain ⟨t, rfl, hπ⟩ := plan_spec hp hplan
  obtain ⟨s, hs, horder⟩ := hπ.order
  have hvisits : (π.legs.map Leg.visit).map Visit.group = nearestFirst .origin s.groups := by
    rw [← horder, List.map_map]
    rfl
  refine ⟨s, _, hs, hvisits, hπ.visited, ?_⟩
  have hkept := t.legs_keepsSetup_iff π.start π.start (π.legs.map Leg.group) rfl rfl
  rw [← hπ.legs, horder] at hkept
  rw [List.forall_mem_map, hπ.start]
  simpa [Leg.visit, Leg.KeepsSetup] using hkept

def turning (m : Motion) (x z : Float) : Waypoint :=
  ⟨{ Modal.initial with motion := m, feedrate := 100, spindleOn := true, spindleClockwise := true
                        spindleSpeed := 900, tool := 1 }, ⟨x, 0, z⟩⟩

def slot : Path :=
  [.initial, turning .rapid 0 5, turning .rapid 10 5, turning .linear 10 (-1),
    turning .linear 12 (-1), turning .rapid 12 5]

theorem nanFree_slot : NaNFree slot := by
  unfold NaNFree slot
  decide

theorem route_slot : route 1 slot = .ok
    [.initial, (Waypoint.initial.withZ 5).withMotion .rapid,
      ((Waypoint.initial.withZ 5).withXY 10 0).withMotion .rapid, sample .linear 10 (-1),
      turning .linear 12 (-1), turning .rapid 12 5] := by
  have hsurvey : survey slot = .ok {
      groups := [⟨turning .linear 10 (-1), [turning .linear 12 (-1)]⟩]
      safetyHeight := 5
      feedrate := 100 } := rfl
  rw [route, slot, plan_of_survey 1 hsurvey, nearestFirst_singleton]
  rfl

/-- The tool goes to the slot and plunges as the origin was left: with the spindle off. -/
theorem slot_plunge_without_spindle : NaNFree slot ∧
    runs slot = [[turning .linear 10 (-1), turning .linear 12 (-1)]] ∧
    ∃ q plunge, route 1 slot = .ok q ∧
      q.filter (·.below) = [plunge, turning .linear 12 (-1)] ∧
      plunge.point = (turning .linear 10 (-1)).point ∧
      plunge.setup ≠ (turning .linear 10 (-1)).setup := by
  refine ⟨nanFree_slot, rfl, _, sample .linear 10 (-1), route_slot, rfl, rfl, ?_⟩
  intro hsame
  have hspindle := congrArg Setup.spindleOn hsame
  cases hspindle

theorem slot_keepsSetup_iff : NaNFree slot ∧ ∃ q, route 1 slot = .ok q ∧
    ∃ s visits, survey slot = .ok s ∧ visits.map Visit.group = nearestFirst .origin s.groups ∧
      Visited slot q visits ∧
      ((∀ v ∈ visits, v.entry.setup = v.group.entry.setup) ↔
        (∀ start ∈ slot.head?, ∀ g ∈ (nearestFirst .origin s.groups).head?, Steady 1 start g) ∧
        (nearestFirst .origin s.groups).IsChain fun g h => Steady 1 g.last h) :=
  ⟨nanFree_slot, _, route_slot, route_keepsSetup_iff nanFree_slot route_slot⟩

end Toolpath.Path
