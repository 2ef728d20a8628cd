import Toolpath.Path.Extent
import Toolpath.Proofs.Number.Extreme

/-!
# What an extent depends on

The sides of the box are the extremes of the coordinates, so paths with the same coordinates have
the same box.
-/

namespace Toolpath.Path

open Number (Same Extreme foldl_extreme smaller_extreme larger_extreme)

theorem foldl_include {β : Type} {f : Extent → β} {k : β → Waypoint → β}
    (h : ∀ e w, f (e.include w) = k (f e) w) (p : Path) (e : Extent) :
    f (p.foldl Extent.include e) = p.foldl k (f e) := by
  induction p generalizing e with
  | nil => rfl
  | cons w p ih => rw [List.foldl_cons, ih, h, List.foldl_cons]

theorem extent?_eq_some {p : Path} {e : Extent} (h : extent? p = some e) :
    ∃ w ws, p = w :: ws ∧ e = p.foldl Extent.include (.at w.point) := by
  cases p with
  | nil => cases h
  | cons w ws => exact ⟨w, ws, rfl, (Option.some.inj h).symm⟩

theorem map_feedrates_extent? {p : Path} (h : p ≠ []) : (extent? p).map (·.feedrates) =
    some (p.foldl (fun feeds w => addFeedrate w.modal.feedrate feeds) []) := by
  obtain ⟨w, ws, rfl⟩ := List.exists_cons_of_ne_nil h
  exact congrArg some (foldl_include (f := Extent.feedrates) (fun _ _ => rfl) (w :: ws) _)

theorem extent?_extreme {f : Extent → Float} {g : Waypoint → Float} {pick : Float → Float → Float}
    {r : Int → Int → Prop} [IsPartialOrder Int r] (hpick : ∀ a b, Extreme r [a, b] (pick a b))
    (h : ∀ e w, f (e.include w) = pick (f e) (g w)) (hat : ∀ w, f (.at w.point) = g w)
    {p : Path} {e : Extent} (he : extent? p = some e) : Extreme r (p.map g) (f e) := by
  obtain ⟨w, ws, rfl, rfl⟩ := extent?_eq_some he
  have hfold : f ((w :: ws).foldl Extent.include (.at w.point)) =
      ((w :: ws).map g).foldl pick (g w) := by
    rw [foldl_include (k := fun a v => pick a (g v)) h, hat, List.foldl_map]
  have hall := foldl_extreme hpick (g w) ((w :: ws).map g)
  rw [hfold]
  exact ⟨by simpa using hall.attained, fun z hz => hall.bound z (List.mem_cons_of_mem _ hz)⟩

structure Extent.Bounds (e : Extent) (p : Path) : Prop where
  lowX : Extreme (· ≤ ·) (p.map (·.point.x)) e.low.x
  lowY : Extreme (· ≤ ·) (p.map (·.point.y)) e.low.y
  lowZ : Extreme (· ≤ ·) (p.map (·.point.z)) e.low.z
  highX : Extreme (· ≥ ·) (p.map (·.point.x)) e.high.x
  highY : Extreme (· ≥ ·) (p.map (·.point.y)) e.high.y
  highZ : Extreme (· ≥ ·) (p.map (·.point.z)) e.high.z

theorem extent?_bounds {p : Path} {e : Extent} (h : extent? p = some e) : e.Bounds p where
  lowX := extent?_extreme (f := (·.low.x)) smaller_extreme (fun _ _ => rfl) (fun _ => rfl) h
  lowY := extent?_extreme (f := (·.low.y)) smaller_extreme (fun _ _ => rfl) (fun _ => rfl) h
  lowZ := extent?_extreme (f := (·.low.z)) smaller_extreme (fun _ _ => rfl) (fun _ => rfl) h
  highX := extent?_extreme (f := (·.high.x)) larger_extreme (fun _ _ => rfl) (fun _ => rfl) h
  highY := extent?_extreme (f := (·.high.y)) larger_extreme (fun _ _ => rfl) (fun _ => rfl) h
  highZ := extent?_extreme (f := (·.high.z)) larger_extreme (fun _ _ => rfl) (fun _ => rfl) h

structure Extent.SameBox (a b : Extent) : Prop where
  lowX : Same a.low.x b.low.x
  lowY : Same a.low.y b.low.y
  lowZ : Same a.low.z b.low.z
  highX : Same a.high.x b.high.x
  highY : Same a.high.y b.high.y
  highZ : Same a.high.z b.high.z

/-- The same values on each axis, in any order and as often as it may be. -/
structure SameLevels (p q : Path) : Prop where
  x : ∀ a, a ∈ p.map (·.point.x) ↔ a ∈ q.map (·.point.x)
  y : ∀ a, a ∈ p.map (·.point.y) ↔ a ∈ q.map (·.point.y)
  z : ∀ a, a ∈ p.map (·.point.z) ↔ a ∈ q.map (·.point.z)

theorem Extent.Bounds.same {a b : Extent} {p q : Path} (ha : a.Bounds p) (hb : b.Bounds q)
    (h : SameLevels p q) : a.SameBox b where
  lowX := ha.lowX.unique hb.lowX fun c => h.x c
  lowY := ha.lowY.unique hb.lowY fun c => h.y c
  lowZ := ha.lowZ.unique hb.lowZ fun c => h.z c
  highX := ha.highX.unique hb.highX fun c => h.x c
  highY := ha.highY.unique hb.highY fun c => h.y c
  highZ := ha.highZ.unique hb.highZ fun c => h.z c

theorem SameLevels.empty_iff {p q : Path} (h : SameLevels p q) : p = [] ↔ q = [] := by
  rw [← List.map_eq_nil_iff (f := (·.point.x)), ← List.map_eq_nil_iff (f := (·.point.x)) (l := q),
    List.eq_nil_iff_forall_not_mem, List.eq_nil_iff_forall_not_mem]
  exact forall_congr' fun a => not_congr (h.x a)

theorem extent?_same {p q : Path} (h : SameLevels p q) :
    Option.Rel Extent.SameBox (extent? p) (extent? q) := by
  cases p with
  | nil =>
    obtain rfl := h.empty_iff.1 rfl
    exact .none
  | cons w p =>
    have hq : q ≠ [] := fun hq => List.cons_ne_nil w p (h.empty_iff.2 hq)
    obtain ⟨v, q, rfl⟩ := List.exists_cons_of_ne_nil hq
    exact .some ((extent?_bounds rfl).same (extent?_bounds rfl) h)

end Toolpath.Path
