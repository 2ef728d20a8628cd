import Toolpath.Path.Retraction
import Toolpath.Path.Routing
import Toolpath.Proofs.Path.Edits

/-!
# The start of a path

A machine starts at rest at the origin. The passes that leave out, insert or reorder waypoints leave
that first one alone, so that no path is emptied.
-/

namespace Toolpath.Path

def StartsAtRest (p : Path) : Prop := p.head? = some .initial

variable {p q : Path}

theorem startsAtRest_iff : StartsAtRest p ↔ ∃ rest, p = .initial :: rest :=
  List.head?_eq_some_iff

theorem StartsAtRest.ne_nil (hp : StartsAtRest p) : p ≠ [] := by
  obtain ⟨rest, rfl⟩ := startsAtRest_iff.1 hp
  exact List.cons_ne_nil _ _

theorem StartsAtRest.drill (hp : StartsAtRest p) : StartsAtRest (drill p) := by
  obtain ⟨rest, rfl⟩ := startsAtRest_iff.1 hp
  unfold StartsAtRest Path.drill
  rw [walk_cons]
  rfl

theorem StartsAtRest.lift (hp : StartsAtRest p) : StartsAtRest (lift p) := by
  obtain ⟨rest, rfl⟩ := startsAtRest_iff.1 hp
  unfold StartsAtRest Path.lift
  rw [walk_cons]
  rfl

theorem head?_route {tolerance : Float} (h : route tolerance p = .ok q) : q.head? = p.head? := by
  cases p with
  | nil => cases h
  | cons start rest =>
    cases hs : survey (start :: rest) with
    | error e => simp [route, plan, hs, bind, Except.bind, Except.map] at h
    | ok s =>
      simp only [route, plan, hs, bind, Except.bind] at h
      cases h
      rfl

theorem StartsAtRest.route {tolerance : Float} (hp : StartsAtRest p)
    (h : route tolerance p = .ok q) : StartsAtRest q :=
  (head?_route h).trans hp

section Edits

variable {before kept kept' : Path} {v w : Waypoint}

theorem Edit.eq_concat (h : Edit before w kept kept') (hw : w.motion.travels = false) :
    kept' = kept ++ [w] := by
  cases h with
  | keep => rfl
  | replace kept v travels => rw [hw] at travels; cases travels
  | drop kept travels => rw [hw] at travels; cases travels

theorem Edit.head?_eq (h : Edit before w kept kept') (hkept : kept.head? = some v)
    (hv : v.motion.travels = false) : kept'.head? = some v := by
  cases h with
  | keep => rw [List.head?_append, hkept, Option.some_or]
  | replace kept u travels same =>
    cases kept with
    | nil =>
      obtain rfl := Option.some.inj hkept
      rw [same, travels] at hv
      cases hv
    | cons => exact hkept
  | drop => exact hkept

theorem Edits.head?_cons {f : Path → Path} (hf : Edits f) (hw : w.motion.travels = false)
    (p : Path) : (f (w :: p)).head? = some w := by
  -- From the end, as an edit touches nothing but the newest waypoint kept.
  induction p using List.reverseRecOn with
  | nil =>
    have hfirst : f [w] = f [] ++ [w] := (hf.step [] w).eq_concat hw
    rw [hfirst, hf.empty]
    rfl
  | append_singleton p v ih => exact (hf.step (w :: p) v).head?_eq ih hw

theorem StartsAtRest.edited {f : Path → Path} (hf : Edits f) (hp : StartsAtRest p) :
    StartsAtRest (f p) := by
  obtain ⟨rest, rfl⟩ := startsAtRest_iff.1 hp
  exact hf.head?_cons rfl rest

end Edits

end Toolpath.Path
