import Toolpath.Proofs.Path.Legs

/-!
# What is cut

A routed path takes the runs below Z0 of its input whole and each of them once. It changes their
order and the settings of their first waypoints. Hops may lie below Z0 too, so they are taken out of
the routed path before its waypoints below Z0 are compared with the runs.
-/

namespace Toolpath.Path

open Number (lt_iff le_iff)

/-- `r` is `q` with some of its hops taken out. A hop goes from the waypoint before it to the place
of the waypoint after it, and both of these stay. -/
inductive WithoutHops : Path → Path → Prop
  | nil : WithoutHops [] []
  | keep (w : Waypoint) {q r : Path} : WithoutHops q r → WithoutHops (w :: q) (w :: r)
  | hop (v w : Waypoint) {q r : Path} : WithoutHops (w :: q) r →
      WithoutHops (v :: v.hopTo w :: w :: q) (v :: r)

namespace WithoutHops

theorem refl (q : Path) : WithoutHops q q := by
  induction q with
  | nil => exact .nil
  | cons w q ih => exact .keep w ih

theorem append_left (a : Path) {q r : Path} (h : WithoutHops q r) :
    WithoutHops (a ++ q) (a ++ r) := by
  induction a with
  | nil => exact h
  | cons w a ih => exact .keep w ih

theorem behind_last {first : Waypoint} {rest q r : Path}
    (h : WithoutHops (rest.getLastD first :: q) (rest.getLastD first :: r)) :
    WithoutHops (first :: rest ++ q) (first :: rest ++ r) := by
  induction rest generalizing first with
  | nil => exact h
  | cons w rest ih =>
    rw [List.getLastD_cons] at h
    exact .keep first (ih h)

end WithoutHops

def Leg.withoutHop (l : Leg) : Path := l.climb ++ l.cut

namespace Travel

variable (t : Travel) (last : Waypoint)

theorem withoutHops_leg {g : Group} {q r : Path}
    (h : WithoutHops ((t.leg last g).last :: q) ((t.leg last g).last :: r)) :
    WithoutHops (last :: (t.leg last g).toList ++ q) (last :: (t.leg last g).withoutHop ++ r) := by
  have hcut : WithoutHops ((t.leg last g).cut ++ q) ((t.leg last g).cut ++ r) := .behind_last h
  unfold Leg.toList Leg.withoutHop
  cases hhop : (t.leg last g).hop with
  | none =>
    simp only [Option.toList_none, List.nil_append, List.cons_append, List.append_assoc]
    exact .keep last (hcut.append_left _)
  | some h =>
    obtain ⟨rfl, hclimb⟩ := t.hop_leg last g h hhop
    rw [hclimb]
    exact .hop last _ hcut

theorem withoutHops_legs (groups : List Group) (after : Path) :
    WithoutHops (last :: (t.legs last groups).flatMap Leg.toList ++ after)
      (last :: (t.legs last groups).flatMap Leg.withoutHop ++ after) := by
  induction groups generalizing last with
  | nil => exact .refl _
  | cons g groups ih =>
    rw [legs_cons, List.flatMap_cons, List.flatMap_cons, ← List.cons_append, ← List.cons_append,
      List.append_assoc, List.append_assoc]
    exact t.withoutHops_leg last (ih _)

end Travel

namespace Planned

variable {p : Path} {t : Travel} {π : Plan}

theorem withoutHops (h : Planned p t π) : WithoutHops π.path
    (π.start :: π.legs.flatMap Leg.withoutHop ++ π.lift) := by
  unfold Plan.path Plan.body
  rw [h.legs]
  exact t.withoutHops_legs π.start _ _

/-- Between the hop and the cut nothing is below Z0. -/
theorem filter_withoutHop (h : Planned p t π) {l : Leg} (hl : l ∈ π.legs) :
    l.withoutHop.filter (·.below) = l.cut := by
  have hclimb := h.climb_not_below hl
  have hcut : ∀ w ∈ l.cut, w.below = true := by
    intro w hw
    obtain ⟨v, hv, hpoint⟩ := List.mem_map.1 (h.map_point_cut hl ▸ List.mem_map_of_mem hw)
    have hdeep := (h.group hl).2.1 v hv
    simpa [Waypoint.below, hpoint] using hdeep
  rw [Leg.withoutHop, List.filter_append, List.filter_eq_nil_iff.2 (by simpa using hclimb),
    List.filter_eq_self.2 hcut, List.nil_append]

theorem filter_legs (h : Planned p t π) (legs : List Leg) (hlegs : ∀ l ∈ legs, l ∈ π.legs) :
    (legs.flatMap Leg.withoutHop).filter (·.below) = (legs.map Leg.cut).flatten := by
  induction legs with
  | nil => rfl
  | cons l legs ih =>
    rw [List.flatMap_cons, List.filter_append, h.filter_withoutHop (hlegs l (by simp)),
      ih fun k hk => hlegs k (by simp [hk])]
    rfl

/-- Behind the first waypoint, only the cuts are below Z0. -/
theorem filter_behind_start (h : Planned p t π) :
    (π.legs.flatMap Leg.withoutHop ++ π.lift).filter (·.below) = (π.legs.map Leg.cut).flatten := by
  obtain ⟨last, -, -, hlift⟩ := h.lift_eq
  rw [List.filter_append, h.filter_legs π.legs fun _ hl => hl, hlift, List.filter_singleton,
    h.not_below_of_eq rfl]
  simp

end Planned

end Toolpath.Path
