import Mathlib.Data.List.Induction
import Toolpath.Proofs.Path.Extent
import Toolpath.Proofs.Path.SafetyPlane

/-!
# Box and feedrates

The extent of a path without missing numbers: a box that all waypoints lie in and that could not be
smaller, and each feedrate once, in the order in which they are first used.
-/

namespace Toolpath.Path

open Number (Extreme beq_iff beq_self beq_symm beq_trans le_iff)

/-- Both ends are among the values and all values lie between them, compared as numbers. -/
structure Encloses (low high : Float) (values : List Float) : Prop where
  lower : ∀ z ∈ values, low ≤ z
  upper : ∀ z ∈ values, z ≤ high
  lowest : ∃ z ∈ values, (z == low) = true
  highest : ∃ z ∈ values, (z == high) = true

/-- The least box that a path lies in. -/
structure Extent.Tight (e : Extent) (p : Path) : Prop where
  x : Encloses e.low.x e.high.x (p.map (·.point.x))
  y : Encloses e.low.y e.high.y (p.map (·.point.y))
  z : Encloses e.low.z e.high.z (p.map (·.point.z))

/-- Each number that is used is listed once, as it is first used and in the order of first uses. -/
structure FirstUses (used listed : List Float) : Prop where
  distinct : listed.Pairwise fun a b => (a == b) = false
  complete : ∀ u ∈ used, ∃ a ∈ listed, (a == u) = true
  first : ∀ a ∈ listed, used.find? (· == a) = some a
  ordered : listed.Pairwise fun a b => used.findIdx (· == a) < used.findIdx (· == b)

section Box

variable {values : List Float} {low high : Float}

theorem encloses_of_extremes (hvalues : ∀ z ∈ values, z.isNaN = false)
    (hlow : Extreme (· ≤ ·) values low) (hhigh : Extreme (· ≥ ·) values high) :
    Encloses low high values where
  lower z hz := by
    obtain ⟨hnumber, hrank⟩ := hlow.bound z hz (hvalues z hz)
    exact le_iff.2 ⟨hnumber, hvalues z hz, hrank⟩
  upper z hz := by
    obtain ⟨hnumber, hrank⟩ := hhigh.bound z hz (hvalues z hz)
    exact le_iff.2 ⟨hvalues z hz, hnumber, hrank⟩
  lowest := by
    obtain ⟨z, hz, hsame⟩ := hlow.attained
    exact ⟨z, hz, hsame.beq (hvalues z hz)⟩
  highest := by
    obtain ⟨z, hz, hsame⟩ := hhigh.attained
    exact ⟨z, hz, hsame.beq (hvalues z hz)⟩

theorem tight_of_nanFree {p : Path} {e : Extent} (hp : NaNFree p) (he : extent? p = some e) :
    e.Tight p := by
  have hbounds := extent?_bounds he
  have hnumbers := fun w hw => Geometry.Point.hasNaN_eq_false.1 (hp w hw)
  refine ⟨encloses_of_extremes ?_ hbounds.lowX hbounds.highX,
    encloses_of_extremes ?_ hbounds.lowY hbounds.highY,
    encloses_of_extremes ?_ hbounds.lowZ hbounds.highZ⟩
  · exact List.forall_mem_map.2 fun w hw => (hnumbers w hw).1
  · exact List.forall_mem_map.2 fun w hw => (hnumbers w hw).2.1
  · exact List.forall_mem_map.2 fun w hw => (hnumbers w hw).2.2

end Box

section Feedrates

variable {used listed : List Float} {u a : Float}

theorem firstUses_nil : FirstUses [] [] := ⟨.nil, by simp, by simp, .nil⟩

theorem FirstUses.mem (h : FirstUses used listed) (ha : a ∈ listed) : a ∈ used :=
  List.mem_of_find?_eq_some (h.first a ha)

theorem FirstUses.findIdx_lt (h : FirstUses used listed) (ha : a ∈ listed) :
    used.findIdx (· == a) < used.length :=
  List.findIdx_lt_length_of_exists
    ⟨a, h.mem ha, List.find?_some (p := (· == a)) (h.first a ha)⟩

theorem FirstUses.findIdx_concat (h : FirstUses used listed) (ha : a ∈ listed) (u : Float) :
    (used ++ [u]).findIdx (· == a) = used.findIdx (· == a) := by
  rw [List.findIdx_append, if_pos (h.findIdx_lt ha)]

theorem FirstUses.find?_concat (h : FirstUses used listed) (ha : a ∈ listed) (u : Float) :
    (used ++ [u]).find? (· == a) = some a := by
  rw [List.find?_append, h.first a ha, Option.some_or]

theorem FirstUses.ordered_concat (h : FirstUses used listed) (u : Float) :
    listed.Pairwise fun a b =>
      (used ++ [u]).findIdx (· == a) < (used ++ [u]).findIdx (· == b) := by
  refine h.ordered.imp_of_mem fun ha hb hlt => ?_
  rwa [h.findIdx_concat ha, h.findIdx_concat hb]

theorem FirstUses.again (h : FirstUses used listed) (hu : ∃ a ∈ listed, (a == u) = true) :
    FirstUses (used ++ [u]) listed where
  distinct := h.distinct
  complete := List.forall_mem_append.2 ⟨h.complete, List.forall_mem_singleton.2 hu⟩
  first _ ha := h.find?_concat ha u
  ordered := h.ordered_concat u

theorem FirstUses.new (h : FirstUses used listed) (hnumber : u.isNaN = false)
    (hu : ∀ a ∈ listed, (a == u) = false) : FirstUses (used ++ [u]) (listed ++ [u]) := by
  -- a number that is used before is listed before
  have hunused : ∀ v ∈ used, (v == u) = false := by
    intro v hv
    obtain ⟨a, ha, hav⟩ := h.complete v hv
    by_contra hvu
    have hau := beq_trans hav (Bool.not_eq_false _ ▸ hvu)
    rw [hu a ha] at hau
    cases hau
  have hself := beq_self hnumber
  have hindex : (used ++ [u]).findIdx (· == u) = used.length := by
    rw [List.findIdx_append, List.findIdx_eq_length_of_false hunused, if_neg (lt_irrefl _)]
    simp [List.findIdx_cons, hself]
  refine ⟨?_, ?_, ?_, ?_⟩
  · refine List.pairwise_append.2 ⟨h.distinct, List.pairwise_singleton .., ?_⟩
    exact fun a ha b hb => List.mem_singleton.1 hb ▸ hu a ha
  · refine List.forall_mem_append.2 ⟨fun v hv => ?_, List.forall_mem_singleton.2 ⟨u, by simp, hself⟩⟩
    obtain ⟨a, ha, hav⟩ := h.complete v hv
    exact ⟨a, List.mem_append_left _ ha, hav⟩
  · refine List.forall_mem_append.2 ⟨fun a ha => h.find?_concat ha u, ?_⟩
    rw [List.forall_mem_singleton, List.find?_append,
      List.find?_eq_none.2 fun v hv => by simp [hunused v hv]]
    simp [hself]
  · refine List.pairwise_append.2 ⟨h.ordered_concat u, List.pairwise_singleton .., ?_⟩
    intro a ha b hb
    rw [List.mem_singleton.1 hb, hindex, h.findIdx_concat ha]
    exact h.findIdx_lt ha

theorem FirstUses.add (h : FirstUses used listed) (hnumber : u.isNaN = false) :
    FirstUses (used ++ [u]) (addFeedrate u listed) := by
  unfold addFeedrate
  split
  · rename_i hlisted
    exact h.again (List.any_eq_true.1 hlisted)
  · rename_i hlisted
    rw [Bool.not_eq_true, List.any_eq_false] at hlisted
    exact h.new hnumber fun a ha => Bool.eq_false_iff.2 (hlisted a ha)

theorem firstUses_foldl (hused : ∀ u ∈ used, u.isNaN = false) :
    FirstUses used (used.foldl (fun listed u => addFeedrate u listed) []) := by
  induction used using List.reverseRecOn with
  | nil => exact firstUses_nil
  | append_singleton used u ih =>
    obtain ⟨hused, hu⟩ := List.forall_mem_append.1 hused
    rw [List.foldl_append]
    exact (ih hused).add (hu u (List.mem_singleton_self u))

end Feedrates

/-- A path that is not empty and has no NaN has an extent: the least box that it lies in, and each
feedrate that occurs on it once, in the order of first use. -/
theorem extent?_tight {p : Path} (hne : p ≠ []) (hp : NaNFree p)
    (hfeeds : ∀ w ∈ p, w.modal.feedrate.isNaN = false) :
    ∃ e, extent? p = some e ∧ e.Tight p ∧
      FirstUses (p.map (·.modal.feedrate)) e.feedrates := by
  obtain ⟨e, he, hlisted⟩ := Option.map_eq_some_iff.1 (map_feedrates_extent? hne)
  refine ⟨e, he, tight_of_nanFree hp he, ?_⟩
  have huses := firstUses_foldl (List.forall_mem_map.2 hfeeds)
  rwa [List.foldl_map, ← hlisted] at huses

def signedZeros : Path :=
  [⟨.initial, .origin⟩, ⟨{ Modal.initial with motion := .rapid }, ⟨-5, 2, 10⟩⟩,
    ⟨{ Modal.initial with motion := .linear, feedrate := 300 }, ⟨7, -0, -2⟩⟩,
    ⟨{ Modal.initial with motion := .linear, feedrate := -0 }, ⟨1, -4, -1⟩⟩,
    ⟨{ Modal.initial with motion := .linear, feedrate := 300 }, ⟨-0, -4, 10⟩⟩]

theorem signedZeros_tight : (signedZeros ≠ [] ∧ NaNFree signedZeros ∧
    ∀ w ∈ signedZeros, w.modal.feedrate.isNaN = false) ∧
      ∃ e, extent? signedZeros = some e ∧ e.Tight signedZeros ∧
        FirstUses (signedZeros.map (·.modal.feedrate)) e.feedrates := by
  have hne : signedZeros ≠ [] := by simp [signedZeros]
  have hp : NaNFree signedZeros := by unfold NaNFree; decide +kernel
  have hfeeds : ∀ w ∈ signedZeros, w.modal.feedrate.isNaN = false := by decide +kernel
  exact ⟨⟨hne, hp, hfeeds⟩, extent?_tight hne hp hfeeds⟩

end Toolpath.Path
