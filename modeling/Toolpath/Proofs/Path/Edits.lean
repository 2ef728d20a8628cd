import Toolpath.Path.Straight
import Toolpath.Proofs.Path.Plunges
import Toolpath.Proofs.Path.Windowless

/-!
# Passes that drop waypoints

Going along a path, a pass has kept a part of what came so far. The next waypoint is added to it,
takes the place of the newest kept one, or is dropped itself. The result for a longer path is an
edit of the result for a shorter one, so a pass can be followed without its memory.
-/

namespace Toolpath.Path

open Toolpath.Geometry (Point)

/-- What is kept before and after `w`, which comes after `before`. -/
inductive Edit (before : Path) (w : Waypoint) : Path → Path → Prop
  | keep (kept : Path) : Edit before w kept (kept ++ [w])
  | replace (kept : Path) (v : Waypoint) (travels : w.motion.travels = true)
      (same : v.motion = w.motion) : Edit before w (kept ++ [v]) (kept ++ [w])
  | drop (kept : Path) (travels : w.motion.travels = true)
      (still : (w.point.distance (endPoint before) == 0) = true) : Edit before w kept kept

/-- Each waypoint makes one edit. -/
structure Edits (f : Path → Path) : Prop where
  empty : f [] = []
  step : ∀ p w, Edit p w (f p) (f (p ++ [w]))

theorem Edits.mem {f : Path → Path} (hf : Edits f) {p : Path} {v : Waypoint} (hv : v ∈ f p) :
    v ∈ p := by
  induction p using List.reverseRecOn with
  | nil =>
    rw [hf.empty] at hv
    exact hv
  | append_singleton p w ih =>
    have hstep := hf.step p w
    generalize f p = kept at hstep ih
    generalize f (p ++ [w]) = kept' at hstep hv
    cases hstep with
    | keep => simp only [List.mem_append] at hv ⊢; exact hv.imp_left ih
    | replace kept u =>
      rcases List.mem_append.1 hv with hv | hv
      · exact List.mem_append_left _ (ih (List.mem_append_left _ hv))
      · exact List.mem_append_right _ hv
    | drop => exact List.mem_append_left _ (ih hv)

theorem Edits.sublist {f : Path → Path} (hf : Edits f) (p : Path) : (f p).Sublist p := by
  induction p using List.reverseRecOn with
  | nil => rw [hf.empty]
  | append_singleton p w ih =>
    have hstep := hf.step p w
    generalize f p = kept at hstep ih
    generalize f (p ++ [w]) = kept' at hstep ⊢
    cases hstep with
    | keep => exact ih.append (.refl [w])
    | replace kept v => exact ((List.sublist_append_left kept [v]).trans ih).append (.refl [w])
    | drop => exact ih.trans (List.sublist_append_left p [w])

/-- Only moves are dropped, and only moves take the place of others. -/
theorem Edits.filter_not_travels {f : Path → Path} (hf : Edits f) (p : Path) :
    (f p).filter (!·.motion.travels) = p.filter (!·.motion.travels) := by
  induction p using List.reverseRecOn with
  | nil => rw [hf.empty]
  | append_singleton p w ih =>
    have hstep := hf.step p w
    generalize f p = kept at hstep ih
    generalize f (p ++ [w]) = kept' at hstep ⊢
    cases hstep with
    | keep => rw [List.filter_append, List.filter_append, ih]
    | replace kept v travels same =>
      have hv : v.motion.travels = true := same ▸ travels
      simpa [travels, hv] using ih
    | drop kept travels => simp [ih, travels]

namespace Straightening

/-- The heading is that of the newest kept waypoint. -/
structure Follows (s : Straightening) (before : Path) : Prop where
  last : s.last = endPoint before
  heading : ∀ h ∈ s.heading, ∃ v rest, s.kept = v :: rest ∧ v.motion = h.motion

theorem step_edit {s : Straightening} {before : Path} (hs : s.Follows before) (w : Waypoint) :
    Edit before w s.kept.reverse (s.step w).kept.reverse ∧
      (s.step w).Follows (before ++ [w]) := by
  have hlast := endPoint_concat before w
  unfold step
  by_cases htravels : w.motion.travels = true
  · rw [if_pos htravels]
    dsimp only
    by_cases hstill : (w.point.sub s.last).norm == 0
    · rw [if_pos hstill]
      exact ⟨.drop _ htravels (hs.last ▸ hstill), hlast.symm, hs.heading⟩
    · rw [if_neg hstill]
      split
      · rename_i hsame
        obtain ⟨h, hh, hsame⟩ := (Option.any_eq_true _ _).1 hsame
        obtain ⟨v, rest, hkept, hmotion⟩ := hs.heading h hh
        have heq : h.motion = w.motion := by
          simp only [Heading.same, Bool.and_eq_true, beq_iff_eq] at hsame
          exact hsame.1.1.1
        rw [hkept, List.tail_cons, List.reverse_cons, List.reverse_cons]
        refine ⟨.replace _ _ htravels (hmotion.trans heq), hlast.symm, ?_⟩
        intro g hg
        obtain rfl := Option.mem_unique hg hh
        exact ⟨w, rest, rfl, heq.symm⟩
      · rw [List.reverse_cons]
        refine ⟨.keep _, hlast.symm, ?_⟩
        rintro h ⟨⟩
        exact ⟨w, _, rfl, rfl⟩
  · rw [if_neg htravels, List.reverse_cons]
    exact ⟨.keep _, hlast.symm, by simp⟩

theorem foldl_follows (p : Path) : (p.foldl step initial).Follows p := by
  induction p using List.reverseRecOn with
  | nil => exact ⟨rfl, by simp [initial]⟩
  | append_singleton p w ih =>
    rw [List.foldl_append]
    exact (step_edit ih w).2

end Straightening

theorem edits_straighten : Edits straighten where
  empty := rfl
  step p w := by
    unfold straighten
    rw [List.foldl_append]
    exact (Straightening.step_edit (Straightening.foldl_follows p) w).1

theorem Trimmed.step_edit (tolerance : Float) (before : Path) (t : Trimmed) (w : Waypoint) :
    Edit before w t.kept.reverse (t.step tolerance w).kept.reverse := by
  obtain ⟨earlier, run⟩ := t
  have hadded : Edit before w (run ++ earlier).reverse (w :: (run ++ earlier)).reverse := by
    rw [List.reverse_cons]
    exact .keep _
  unfold step
  split
  · rename_i htravels
    split
    · rename_i hsame
      match run with
      | [] | [_] => exact hadded
      | b :: a :: run =>
        dsimp only [keepNext]
        split
        · have hmotion : b.motion = w.motion := Option.some.inj hsame
          simp only [kept, List.cons_append, List.reverse_cons (a := b), List.reverse_cons (a := w)]
          exact .replace _ _ htravels hmotion
        · exact hadded
    · exact hadded
  · exact hadded

theorem edits_simplify (tolerance : Float) : Edits (simplify tolerance) where
  empty := rfl
  step p w := by
    rw [simplify_eq_trim, simplify_eq_trim, trim, trim, List.foldl_append]
    exact Trimmed.step_edit tolerance p _ w

end Toolpath.Path
