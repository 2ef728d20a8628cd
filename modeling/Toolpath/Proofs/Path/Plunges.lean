import Mathlib.Data.List.Induction
import Toolpath.Path.Drilling
import Toolpath.Proofs.Geometry.Point
import Toolpath.Proofs.Path.Extent
import Toolpath.Proofs.Path.Walk

/-!
# Drilling by history

What drilling makes of a waypoint, said by the path before it: by the lowest level that earlier
plunges at the same place have reached. Nothing is remembered but the path itself.
-/

namespace Toolpath.Path

open Toolpath.Geometry (Point)
open Number (rank lt_iff le_iff smaller)

structure Plunge (last : Point) (w : Waypoint) : Prop where
  linear : w.motion = .linear
  straight : w.point.sameXY last = true
  down : w.point.z < last.z

instance (last : Point) (w : Waypoint) : Decidable (Plunge last w) :=
  decidable_of_iff (w.motion = .linear ∧ w.point.sameXY last = true ∧ w.point.z < last.z)
    ⟨fun ⟨linear, straight, down⟩ => ⟨linear, straight, down⟩,
      fun h => ⟨h.linear, h.straight, h.down⟩⟩

theorem Plunge.number {last : Point} {w : Waypoint} (h : Plunge last w) :
    w.point.hasNaN = false := by
  obtain ⟨hx, hy⟩ := Point.sameXY_iff.1 h.straight
  exact Point.hasNaN_eq_false.2
    ⟨(Number.beq_iff.1 hx).1, (Number.beq_iff.1 hy).1, (lt_iff.1 h.down).1⟩

theorem Plunge.below {last : Point} {w : Waypoint} (h : Plunge last w) {depth : Float}
    (hdepth : w.point.z < depth) : Plunge (w.withZ depth).point w where
  linear := h.linear
  straight := Point.sameXY_refl h.number
  down := hdepth

/-- Where a path has come to. It sets out from the origin. -/
def endPoint (p : Path) : Point := (p.getLastD .initial).point

def plungesAt (here : Point) (p : Path) : List Waypoint :=
  ((histories p).filter fun (before, w) =>
    Plunge (endPoint before) w ∧ w.point.sameXY here = true).map Prod.snd

/-- The last of the lowest levels. -/
def lowest? (zs : List Float) : Option Float := zs.reverse.find? fun z => zs.all (z ≤ ·)

/-- The lowest level that plunges at a place have reached. -/
def deepest? (here : Point) (p : Path) : Option Float :=
  lowest? ((plungesAt here p).map (·.point.z))

/-- A plunge is made at rapid speed down to the lowest level that the path before it has reached
there, if that lies below its start. -/
def redrilled (before : Path) (w : Waypoint) : List Waypoint :=
  let start := endPoint before
  if Plunge start w then
    match deepest? w.point before with
    | none => [w]
    | some depth =>
      if start.z ≤ depth then [w]
      else if depth ≤ w.point.z then [w.withMotion .rapid]
      else [(w.withZ depth).withMotion .rapid, w]
  else [w]

/-- Each waypoint is replaced by what the path before it makes of it. -/
def redrill (p : Path) : Path := (histories p).flatMap fun (before, w) => redrilled before w

@[simp] theorem endPoint_concat (p : Path) (w : Waypoint) : endPoint (p ++ [w]) = w.point := by
  simp [endPoint]

@[simp] theorem plungesAt_nil (here : Point) : plungesAt here [] = [] := rfl

theorem plungesAt_concat (here : Point) (p : Path) (w : Waypoint) :
    plungesAt here (p ++ [w]) = plungesAt here p ++
      if Plunge (endPoint p) w ∧ w.point.sameXY here = true then [w] else [] := by
  unfold plungesAt
  rw [histories_concat, List.filter_append, List.map_append, List.filter_singleton]
  by_cases h : Plunge (endPoint p) w ∧ w.point.sameXY here = true
  · simp [h]
  · simp [h]

theorem plungesAt_congr {a b : Point} (hx : a.x = b.x) (hy : a.y = b.y) (p : Path) :
    plungesAt a p = plungesAt b p := by
  have hxy : ∀ q : Point, q.sameXY a = q.sameXY b := by
    intro q
    rw [Point.sameXY, Point.sameXY, hx, hy]
  unfold plungesAt
  refine congrArg _ (List.filter_congr fun h _ => decide_eq_decide.2 ?_)
  rw [hxy]

theorem mem_plungesAt {here : Point} {p : Path} {u : Waypoint} : u ∈ plungesAt here p ↔
    ∃ before, (before, u) ∈ histories p ∧ Plunge (endPoint before) u ∧
      u.point.sameXY here = true := by
  simp [plungesAt]

section Lowest

variable {zs : List Float} {depth : Float}

theorem lowest?_eq_some (h : lowest? zs = some depth) : depth ∈ zs ∧ ∀ z ∈ zs, depth ≤ z := by
  refine ⟨List.mem_reverse.1 (List.mem_of_find?_eq_some h), ?_⟩
  simpa using List.find?_some h

theorem lowest?_eq_none (hzs : ∀ z ∈ zs, z.isNaN = false) : lowest? zs = none ↔ zs = [] := by
  constructor
  · intro h
    -- a level of least rank would have been found
    cases hmin : List.argmin rank zs with
    | none => exact List.argmin_eq_none.1 hmin
    | some m =>
      have hm : m ∈ zs := List.argmin_mem hmin
      have hleast : (zs.all fun z => m ≤ z) = true := by
        simp only [List.all_eq_true, decide_eq_true_eq]
        exact fun z hz => le_iff.2 ⟨hzs m hm, hzs z hz, List.le_of_mem_argmin hz hmin⟩
      exact absurd hleast (List.find?_eq_none.1 h m (List.mem_reverse.2 hm))
  · rintro rfl
    rfl

theorem lowest?_concat_of_le {z : Float} (hz : z.isNaN = false) (h : ∀ y ∈ zs, z ≤ y) :
    lowest? (zs ++ [z]) = some z := by
  have hself : z ≤ z := le_iff.2 ⟨hz, hz, le_rfl⟩
  have hall : ((zs ++ [z]).all fun y => z ≤ y) = true := by simpa [hself] using h
  unfold lowest?
  rw [List.reverse_concat, List.find?_cons, hall]

theorem lowest?_concat_of_lt {z : Float} (h : lowest? zs = some depth) (hz : depth < z) :
    lowest? (zs ++ [z]) = some depth := by
  obtain ⟨hmem, -⟩ := lowest?_eq_some h
  have hnew : ((zs ++ [z]).all fun y => z ≤ y) = false := by
    simp only [List.all_eq_false, decide_eq_true_eq]
    refine ⟨depth, by simp [hmem], fun hle => ?_⟩
    rw [lt_iff] at hz
    rw [le_iff] at hle
    omega
  have hsame : ∀ y ∈ zs.reverse, ((zs ++ [z]).all fun x => y ≤ x) = zs.all fun x => y ≤ x := by
    intro y hy
    rw [List.all_append, Bool.and_eq_left_iff_imp]
    intro hall
    have hle : y ≤ depth := by simpa using List.all_eq_true.1 hall depth hmem
    rw [lt_iff] at hz
    rw [le_iff] at hle
    simpa using le_iff.2 ⟨hle.1, hz.2.1, by omega⟩
  unfold lowest?
  rw [List.reverse_concat, List.find?_cons, hnew]
  exact (List.find?_congr hsame).trans h

theorem lowest?_concat {z : Float} (hz : z.isNaN = false) (hzs : ∀ y ∈ zs, y.isNaN = false) :
    lowest? (zs ++ [z]) = some (match lowest? zs with
      | some depth => smaller depth z
      | none => z) := by
  cases hlow : lowest? zs with
  | none =>
    obtain rfl := (lowest?_eq_none hzs).1 hlow
    exact lowest?_concat_of_le hz (by simp)
  | some depth =>
    obtain ⟨hmem, hleast⟩ := lowest?_eq_some hlow
    have hdepth := hzs depth hmem
    by_cases hnew : z ≤ depth
    · have hbelow : ∀ y ∈ zs, z ≤ y := by
        intro y hy
        have hle := hleast y hy
        rw [le_iff] at hnew hle ⊢
        exact ⟨hz, hle.2.1, by omega⟩
      rw [lowest?_concat_of_le hz hbelow]
      exact congrArg some (Number.smaller_of_le hnew).symm
    · have hlower : depth < z := Number.lt_of_not_le hz hdepth hnew
      rw [lowest?_concat_of_lt hlow hlower]
      exact congrArg some (Number.smaller_of_not_le hdepth hnew).symm

end Lowest

theorem deepest?_eq_some {here : Point} {p : Path} {depth : Float}
    (h : deepest? here p = some depth) :
    (∃ u ∈ plungesAt here p, u.point.z = depth) ∧ ∀ u ∈ plungesAt here p, depth ≤ u.point.z := by
  obtain ⟨hmem, hleast⟩ := lowest?_eq_some h
  exact ⟨by simpa using hmem, by simpa using hleast⟩

section Redrilled

variable {before p : Path} {v w : Waypoint}

theorem redrilled_cases (before : Path) (w : Waypoint) : redrilled before w = [w] ∨
    ∃ depth, Plunge (endPoint before) w ∧ deepest? w.point before = some depth ∧
      (depth ≤ w.point.z ∧ redrilled before w = [w.withMotion .rapid] ∨
        (¬ (endPoint before).z ≤ depth ∧ ¬ depth ≤ w.point.z) ∧
          redrilled before w = [(w.withZ depth).withMotion .rapid, w]) := by
  unfold redrilled
  by_cases hw : Plunge (endPoint before) w
  · rw [if_pos hw]
    cases hdepth : deepest? w.point before with
    | none => exact .inl rfl
    | some depth =>
      by_cases hstart : (endPoint before).z ≤ depth
      · exact .inl (if_pos hstart)
      · refine .inr ⟨depth, hw, rfl, ?_⟩
        by_cases hz : depth ≤ w.point.z
        · exact .inl ⟨hz, by simp only [if_neg hstart, if_pos hz]⟩
        · exact .inr ⟨⟨hstart, hz⟩, by simp only [if_neg hstart, if_neg hz]⟩
  · rw [if_neg hw]
    exact .inl rfl

theorem mem_redrill :
    v ∈ redrill p ↔ ∃ before w, (before, w) ∈ histories p ∧ v ∈ redrilled before w := by
  simp [redrill]

theorem redrill_concat (p : Path) (w : Waypoint) :
    redrill (p ++ [w]) = redrill p ++ redrilled p w := by
  simp [redrill]

/-- What a waypoint becomes is at its place, at its level or at that of an earlier plunge. -/
theorem mem_redrilled (hv : v ∈ redrilled before w) :
    v.modal.feedrate = w.modal.feedrate ∧ v.point.x = w.point.x ∧ v.point.y = w.point.y ∧
      (v.point.z = w.point.z ∨ ∃ u ∈ plungesAt w.point before, u.point.z = v.point.z) := by
  rcases redrilled_cases before w with h | ⟨depth, -, hdepth, ⟨-, h⟩ | ⟨-, h⟩⟩ <;> rw [h] at hv
  · obtain rfl := List.mem_singleton.1 hv
    exact ⟨rfl, rfl, rfl, .inl rfl⟩
  · obtain rfl := List.mem_singleton.1 hv
    exact ⟨rfl, rfl, rfl, .inl rfl⟩
  · rcases List.mem_pair.1 hv with rfl | rfl
    · exact ⟨rfl, rfl, rfl, .inr (deepest?_eq_some hdepth).1⟩
    · exact ⟨rfl, rfl, rfl, .inl rfl⟩

/-- Where a waypoint is not written as it was, an earlier plunge has been as low. -/
theorem cleared_of_mem_redrilled (hv : v ∈ redrilled before w) :
    v = w ∨ ∃ u ∈ plungesAt w.point before, u.point.z ≤ v.point.z := by
  rcases redrilled_cases before w with hout | ⟨depth, -, hdepth, hout⟩
  · rw [hout] at hv
    exact .inl (List.mem_singleton.1 hv)
  · obtain ⟨⟨u, hu, rfl⟩, hleast⟩ := deepest?_eq_some hdepth
    rcases hout with ⟨hle, hout⟩ | ⟨-, hout⟩ <;> rw [hout] at hv
    · obtain rfl := List.mem_singleton.1 hv
      exact .inr ⟨u, hu, hle⟩
    · rcases List.mem_pair.1 hv with rfl | rfl
      · exact .inr ⟨u, hu, hleast u hu⟩
      · exact .inl rfl

theorem exists_mem_redrilled (before : Path) (w : Waypoint) :
    ∃ v ∈ redrilled before w, v.point = w.point := by
  rcases redrilled_cases before w with h | ⟨depth, -, -, ⟨-, h⟩ | ⟨-, h⟩⟩ <;> rw [h]
  · exact ⟨w, by simp, rfl⟩
  · exact ⟨w.withMotion .rapid, by simp, rfl⟩
  · exact ⟨w, by simp, rfl⟩

theorem mem_of_mem_histories (h : (before, w) ∈ histories p) :
    w ∈ p ∧ ∀ u ∈ before, u ∈ p := by
  obtain ⟨after, rfl⟩ := mem_histories.1 h
  exact ⟨by simp, fun u hu => by simp [hu]⟩

theorem exists_mem_redrill (hw : w ∈ p) : ∃ v ∈ redrill p, v.point = w.point := by
  obtain ⟨before, after, hsplit⟩ := List.append_of_mem hw
  obtain ⟨v, hv, hpoint⟩ := exists_mem_redrilled before w
  exact ⟨v, mem_redrill.2 ⟨before, w, mem_histories.2 ⟨after, hsplit⟩, hv⟩, hpoint⟩

theorem levels_of_mem_redrill (hv : v ∈ redrill p) :
    ∃ w ∈ p, v.point.x = w.point.x ∧ v.point.y = w.point.y ∧ ∃ u ∈ p, v.point.z = u.point.z := by
  obtain ⟨before, w, hmem, hv⟩ := mem_redrill.1 hv
  obtain ⟨hw, hbefore⟩ := mem_of_mem_histories hmem
  obtain ⟨-, hx, hy, hz | ⟨u, hu, hz⟩⟩ := mem_redrilled hv
  · exact ⟨w, hw, hx, hy, w, hw, hz⟩
  · obtain ⟨b, hb, -⟩ := mem_plungesAt.1 hu
    exact ⟨w, hw, hx, hy, u, hbefore u (mem_of_mem_histories hb).1, hz.symm⟩

theorem mem_map_redrill_iff {g : Point → Float}
    (h : ∀ v ∈ redrill p, ∃ u ∈ p, g v.point = g u.point) (a : Float) :
    a ∈ (redrill p).map (fun w => g w.point) ↔ a ∈ p.map fun w => g w.point := by
  rw [List.mem_map, List.mem_map]
  constructor
  · rintro ⟨v, hv, rfl⟩
    obtain ⟨u, hu, hg⟩ := h v hv
    exact ⟨u, hu, hg.symm⟩
  · rintro ⟨w, hw, rfl⟩
    obtain ⟨v, hv, hpoint⟩ := exists_mem_redrill hw
    exact ⟨v, hv, congrArg g hpoint⟩

theorem sameLevels_redrill (p : Path) : SameLevels (redrill p) p := by
  constructor
  · apply mem_map_redrill_iff (g := Point.x)
    intro v hv
    obtain ⟨w, hw, hx, -⟩ := levels_of_mem_redrill hv
    exact ⟨w, hw, hx⟩
  · apply mem_map_redrill_iff (g := Point.y)
    intro v hv
    obtain ⟨w, hw, -, hy, -⟩ := levels_of_mem_redrill hv
    exact ⟨w, hw, hy⟩
  · apply mem_map_redrill_iff (g := Point.z)
    intro v hv
    obtain ⟨-, -, -, -, u, hu, hz⟩ := levels_of_mem_redrill hv
    exact ⟨u, hu, hz⟩

theorem addFeedrate_twice {feed : Float} (h : feed.isNaN = false) (feeds : List Float) :
    addFeedrate feed (addFeedrate feed feeds) = addFeedrate feed feeds := by
  have hlisted : (addFeedrate feed feeds).any (· == feed) = true := by
    unfold addFeedrate
    split
    · assumption
    · simp [Number.beq_self h]
  exact if_pos hlisted

theorem foldl_addFeedrate_redrill (h : ∀ w ∈ p, w.modal.feedrate.isNaN = false)
    (feeds : List Float) :
    (redrill p).foldl (fun feeds w => addFeedrate w.modal.feedrate feeds) feeds =
      p.foldl (fun feeds w => addFeedrate w.modal.feedrate feeds) feeds := by
  induction p using List.reverseRecOn with
  | nil => rfl
  | append_singleton p w ih =>
    have hw := h w (by simp)
    rw [redrill_concat, List.foldl_append, List.foldl_append, ih fun v hv => h v (by simp [hv])]
    rcases redrilled_cases p w with hout | ⟨depth, -, -, ⟨-, hout⟩ | ⟨-, hout⟩⟩ <;> rw [hout]
    · rfl
    · exact addFeedrate_twice hw _

theorem map_feedrates_redrill (h : ∀ w ∈ p, w.modal.feedrate.isNaN = false) :
    (extent? (redrill p)).map (·.feedrates) = (extent? p).map (·.feedrates) := by
  by_cases hp : p = []
  · rw [hp]
    rfl
  · have hq : redrill p ≠ [] := fun hq => hp ((sameLevels_redrill p).empty_iff.1 hq)
    rw [map_feedrates_extent? hp, map_feedrates_extent? hq, foldl_addFeedrate_redrill h]

end Redrilled

end Toolpath.Path
