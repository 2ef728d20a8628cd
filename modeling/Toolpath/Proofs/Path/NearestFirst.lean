import Toolpath.Proofs.Number.Hypotenuse
import Toolpath.Proofs.Path.Legs

/-!
# The order of visits

Each group that is visited next is the foremost of those left: none begins nearer, and none begins
as near and higher. This is seen from where the group before begins. The tool, though, is where
that group ends, and seen from there another group may be nearer.
-/

namespace Toolpath.Path

open Toolpath.Geometry (Point)
open Number (lt_iff beq_iff)

theorem lateralDistance_of_sameXY {a b : Point} (h : a.sameXY b = true) (p : Point) :
    p.lateralDistance a = p.lateralDistance b := by
  obtain ⟨hx, hy⟩ := Point.sameXY_iff.1 h
  exact Number.hypotenuse_congr (Number.sub_eq_or_beq p.x hx) (Number.sub_eq_or_beq p.y hy)

def Group.distance (g : Group) (here : Point) : Float := g.entry.point.lateralDistance here

/-- `h` begins nearer than `g`, or as near and higher. A distance that is not a number is neither
nearer nor as near. -/
def Precedes (here : Point) (h g : Group) : Prop :=
  h.distance here < g.distance here ∨
    (h.distance here == g.distance here) ∧ g.entry.point.z < h.entry.point.z

instance (here : Point) (h g : Group) : Decidable (Precedes here h g) :=
  inferInstanceAs (Decidable (_ ∨ _))

/-- No other group comes before it. -/
def Foremost (here : Point) (g : Group) (others : List Group) : Prop :=
  ∀ h ∈ others, ¬ Precedes here h g

/-- Each group is the foremost of those from it on, seen from where the group before is left. -/
def Greedy (leave : Group → Point) (here : Point) : List Group → Prop
  | [] => True
  | g :: gs => Foremost here g gs ∧ Greedy leave (leave g) gs

section Precedes

variable {here : Point} {f g h : Group}

theorem not_precedes_self (here : Point) (g : Group) : ¬ Precedes here g g := by
  rintro (hlt | ⟨-, hlt⟩)
  · exact lt_irrefl _ (lt_iff.1 hlt).2.2
  · exact lt_irrefl _ (lt_iff.1 hlt).2.2

theorem Precedes.trans (hfg : Precedes here f g) (hgh : Precedes here g h) :
    Precedes here f h := by
  unfold Precedes at *
  simp only [lt_iff, beq_iff] at *
  grind

theorem precedes_of_sameXY {there : Point} (hsame : here.sameXY there = true) (g h : Group) :
    Precedes here h g ↔ Precedes there h g := by
  have hdistance (k : Group) : k.distance here = k.distance there :=
    lateralDistance_of_sameXY hsame k.entry.point
  unfold Precedes
  rw [hdistance, hdistance]

end Precedes

section Foremost

variable {here : Point} {best g : Group} {seen : List Group}

theorem Foremost.concat (hbest : Foremost here best seen) (hg : ¬ Precedes here g best) :
    Foremost here best (seen ++ [g]) := by
  intro h hh
  rcases List.mem_append.1 hh with hh | hh
  · exact hbest h hh
  · rw [List.mem_singleton.1 hh]
    exact hg

theorem Foremost.displaced (hbest : Foremost here best seen) (hg : Precedes here g best) :
    Foremost here g (seen ++ [g]) := by
  have hseen : Foremost here g seen := by
    intro h hh hprecedes
    exact hbest h hh (hprecedes.trans hg)
  exact hseen.concat (not_precedes_self here g)

theorem closestFrom_cons (here : Point) (best g : Group) (gs : List Group) (found next : Nat) :
    closestFrom here best.entry (best.distance here) found next (g :: gs) =
      if Precedes here g best then closestFrom here g.entry (g.distance here) next (next + 1) gs
      else closestFrom here best.entry (best.distance here) found (next + 1) gs := by
  rw [closestFrom]
  rfl

theorem closestFrom_foremost (gs : List Group) {found : Nat} (hfound : seen[found]? = some best)
    (hbest : Foremost here best seen) :
    ∃ g, (seen ++ gs)[closestFrom here best.entry (best.distance here) found seen.length gs]? =
      some g ∧ Foremost here g (seen ++ gs) := by
  induction gs generalizing seen best found with
  | nil =>
    rw [List.append_nil]
    exact ⟨best, hfound, hbest⟩
  | cons g gs ih =>
    have hlength : (seen ++ [g]).length = seen.length + 1 := by simp
    rw [closestFrom_cons, List.append_cons, ← hlength]
    by_cases hg : Precedes here g best
    · have hlast : (seen ++ [g])[seen.length]? = some g := by simp
      rw [if_pos hg]
      exact ih hlast (hbest.displaced hg)
    · have hkept : (seen ++ [g])[found]? = some best := by
        rwa [List.getElem?_append_left (List.getElem?_eq_some_iff.1 hfound).1]
      rw [if_neg hg]
      exact ih hkept (hbest.concat hg)

theorem closest_foremost (here : Point) (first : Group) (others : List Group) :
    Foremost here ((first :: others).get ⟨closest here first others, closest_lt here first others⟩)
      (first :: others) := by
  have hfirst : Foremost here first [first] := by
    intro h hh
    rw [List.mem_singleton.1 hh]
    exact not_precedes_self here first
  have hfound : [first][0]? = some first := rfl
  obtain ⟨g, hg, hforemost⟩ := closestFrom_foremost others hfound hfirst
  obtain ⟨_, rfl⟩ := List.getElem?_eq_some_iff.1 hg
  exact hforemost

end Foremost

theorem nearestFirst_greedy (here : Point) (groups : List Group) :
    Greedy (fun g => g.entry.point) here (nearestFirst here groups) := by
  fun_induction nearestFirst here groups with
  | case1 here => trivial
  | case2 here first others index g ih =>
    refine ⟨?_, ih⟩
    intro h hh
    have hleft := (nearestFirst_perm g.entry.point _).subset hh
    exact closest_foremost here first others h (List.mem_of_mem_eraseIdx hleft)

/-- The first group apart, a greedy order is one fact for each two groups in sequence. -/
theorem greedy_iff {leave : Group → Point} {here : Point} {order : List Group} :
    Greedy leave here order ↔ (∀ g ∈ order.head?, Foremost here g order.tail) ∧
      ∀ before g h after, order = before ++ g :: h :: after → Foremost (leave g) h after := by
  induction order generalizing here with
  | nil => simp [Greedy]
  | cons g gs ih =>
    rw [Greedy, ih]
    constructor
    · rintro ⟨hg, hsecond, hrest⟩
      refine ⟨by simpa using hg, ?_⟩
      intro before g' h after horder
      cases before with
      | nil =>
        obtain ⟨rfl, rfl⟩ := List.cons.inj horder
        exact hsecond h rfl
      | cons k before =>
        obtain ⟨-, hgs⟩ := List.cons.inj horder
        exact hrest before g' h after hgs
    · rintro ⟨hg, hnext⟩
      refine ⟨hg g rfl, ?_, ?_⟩
      · intro h hh
        obtain ⟨after, rfl⟩ := List.head?_eq_some_iff.1 hh
        exact hnext [] g h after rfl
      · intro before g' h after hgs
        exact hnext (g :: before) g' h after (congrArg (g :: ·) hgs)

/-- Routing visits each group once, and next is always the foremost of those left as seen from the
entry of the group before. -/
theorem nearestFirst_order (groups : List Group) :
    (nearestFirst .origin groups).Perm groups ∧
      Greedy (fun g => g.entry.point) .origin (nearestFirst .origin groups) ∧
      (Greedy (fun g => g.last.point) .origin (nearestFirst .origin groups) ↔
        ∀ before g h after, nearestFirst .origin groups = before ++ g :: h :: after →
          ¬ g.last.point.sameXY g.entry.point → Foremost g.last.point h after) := by
  have hgreedy := nearestFirst_greedy .origin groups
  obtain ⟨hfirst, hnext⟩ := greedy_iff.1 hgreedy
  refine ⟨nearestFirst_perm .origin groups, hgreedy, ?_⟩
  rw [greedy_iff]
  constructor
  · rintro ⟨-, hlast⟩ before g h after horder -
    exact hlast before g h after horder
  · intro haway
    refine ⟨hfirst, ?_⟩
    intro before g h after horder
    by_cases hsame : g.last.point.sameXY g.entry.point = true
    · intro k hk
      rw [precedes_of_sameXY hsame]
      exact hnext before g h after horder k hk
    · exact haway before g h after horder hsame

/-- A slot of nine millimetres, then a hole one millimetre past its end and one within its
length. -/
def slotAndHoles : Path :=
  [.initial, sample .rapid 1 0, sample .linear 1 (-1), sample .linear 10 (-1), sample .rapid 10 5,
    sample .rapid 11 5, sample .linear 11 (-1), sample .rapid 11 5, sample .rapid 3 5,
    sample .linear 3 (-1), sample .rapid 3 5]

def slotGroup : Group := ⟨sample .linear 1 (-1), [sample .linear 10 (-1)]⟩

def holeGroup (x : Float) : Group := ⟨sample .linear x (-1), []⟩

set_option maxRecDepth 2000 in
theorem survey_slotAndHoles : survey slotAndHoles =
    .ok { groups := [slotGroup, holeGroup 11, holeGroup 3], safetyHeight := 5, feedrate := 100 } :=
  rfl

theorem nearestFirst_slotAndHoles : nearestFirst .origin [slotGroup, holeGroup 11, holeGroup 3] =
    [slotGroup, holeGroup 3, holeGroup 11] := by
  have hslot : closest .origin slotGroup [holeGroup 11, holeGroup 3] = 0 := rfl
  have hholes : nearestFirst slotGroup.entry.point [holeGroup 11, holeGroup 3] =
      [holeGroup 3, holeGroup 11] := nearestFirst_swap rfl
  rw [nearestFirst.eq_def]
  simp only [hslot]
  exact congrArg (slotGroup :: ·) hholes

/-- From the end of the slot the tool goes back seven millimetres, past a hole beside it. -/
theorem slotAndHoles_counterexample : ∃ s, survey slotAndHoles = .ok s ∧
    ¬ Greedy (fun g => g.last.point) .origin (nearestFirst .origin s.groups) := by
  refine ⟨_, survey_slotAndHoles, ?_⟩
  rw [nearestFirst_slotAndHoles]
  rintro ⟨-, hnext, -⟩
  have hnearer : Precedes slotGroup.last.point (holeGroup 11) (holeGroup 3) := by decide
  exact hnext (holeGroup 11) (by simp) hnearer

end Toolpath.Path
