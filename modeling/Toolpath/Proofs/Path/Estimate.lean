import Toolpath.Proofs.Path.ExactTime

/-!
# The running time as a sum

What each waypoint adds to the running time: the time for a change of tools and the time for the
move or the dwell, told by the waypoint before it. The running time is their sum, cut off at the
longest span, so it never goes down when a path goes on.
-/

namespace Toolpath.Path

/-- Each waypoint with the one before it, if there is one. -/
def successions (p : Path) : List (Option Waypoint × Waypoint) :=
  (histories p).map fun (before, w) => (before.getLast?, w)

def changeSeconds (before : Option Waypoint) (w : Waypoint) : Nat :=
  match before with
  | none => 10
  | some v =>
    if w.modal.tool = v.modal.tool then 0
    else if w.modal.tool = v.modal.nextTool then 5
    else 10

/-- The seconds that are computed for a move or a dwell. The other waypoints take no time. -/
def motionSeconds (before : Option Waypoint) (w : Waypoint) : Float :=
  let length := w.point.distance (before.elim .origin (·.point))
  let feed := if 0 < w.modal.feedrate then w.modal.feedrate else 300
  match w.motion with
  | .unset | .clockwise | .counterclockwise => 0
  | .dwell => if 0 < w.modal.dwellTime then w.modal.dwellTime else 0
  | .rapid => length / (feed * 8) * 60
  | .linear => length / feed * 60

/-- What a waypoint adds to the running time, in nanoseconds. -/
inductive Adds (before : Option Waypoint) (w : Waypoint) : Nat → Prop
  | intro {s : Span} (motion : Lasts (motionSeconds before w) s) :
      Adds before w (changeSeconds before w * 10 ^ 9 + s.nanoseconds)

/-- What the waypoints of a path add to its running time, one after the other. -/
def Parts (p : Path) (parts : List Nat) : Prop :=
  List.Forall₂ (fun s n => Adds s.1 s.2 n) (successions p) parts

section Rounding

variable {n m : Nat} {t : ℝ} {x : Float} {s s' : Span}

theorem Nearest.le (hn : Nearest n t) (hm : Nearest m t) : n ≤ m := by
  by_contra hlt
  obtain ⟨-, hup⟩ := abs_le.1 hn.near
  obtain ⟨hlow, -⟩ := abs_le.1 hm.near
  -- they are neighbours with `t` halfway between, and only one of them is even
  have hstep : (m : ℝ) + 1 ≤ n := by exact_mod_cast not_le.1 hlt
  have hn_even := hn.even (by rw [abs_of_nonneg] <;> linarith)
  have hm_even := hm.even (by rw [abs_of_nonpos] <;> linarith)
  have hnext : n = m + 1 := by exact_mod_cast le_antisymm (show (n : ℝ) ≤ m + 1 by linarith) hstep
  rw [hnext, Nat.even_add_one] at hn_even
  exact hn_even hm_even

theorem Nearest.unique (hn : Nearest n t) (hm : Nearest m t) : n = m :=
  le_antisymm (hn.le hm) (hm.le hn)

theorem Lasts.unique (h : Lasts x s) (h' : Lasts x s') : s = s' := by
  cases h with
  | rounded finite sign nearest =>
    cases h' with
    | rounded _ _ nearest' => rw [nearest.unique nearest']
    | senseless negative => exact absurd (negative finite) sign.not_gt
  | senseless negative =>
    cases h' with
    | rounded finite sign _ => exact absurd (negative finite) sign.not_gt
    | senseless _ => rfl

theorem lasts_iff : Lasts x s ↔ s = .ofSeconds x := by
  constructor
  · exact fun h => h.unique (lasts_ofSeconds x)
  · rintro rfl
    exact lasts_ofSeconds x

end Rounding

section Parts

variable {p : Path} {w : Waypoint} {before : Option Waypoint}

def addedTime (before : Option Waypoint) (w : Waypoint) : Nat :=
  changeSeconds before w * 10 ^ 9 + (Span.ofSeconds (motionSeconds before w)).nanoseconds

theorem adds_iff {n : Nat} : Adds before w n ↔ addedTime before w = n := by
  constructor
  · rintro ⟨hmotion⟩
    rw [lasts_iff.1 hmotion, addedTime]
  · rintro rfl
    exact .intro (lasts_iff.2 rfl)

theorem parts_iff {parts : List Nat} :
    Parts p parts ↔ (successions p).map (fun s => addedTime s.1 s.2) = parts := by
  unfold Parts
  simp only [adds_iff]
  rw [← List.forall₂_map_left_iff (R := Eq), List.forall₂_eq_eq_eq]

theorem ofSeconds_zero : Span.ofSeconds 0 = ⟨0⟩ := by decide +kernel

theorem larger_zero (x : Float) : Number.larger x 0 = if 0 < x then x else 0 := by
  unfold Number.larger
  by_cases h : 0 < x
  · obtain ⟨-, hnumber, hrank⟩ := Number.lt_iff.1 h
    have hwins : ¬ (x.isNaN = true ∨ x ≤ 0) := by
      rintro (hnan | hle)
      · exact Bool.false_ne_true (hnumber.symm.trans hnan)
      · exact hrank.not_ge (Number.le_iff.1 hle).2.2
    rw [if_pos h, if_neg hwins]
  · rw [if_neg h]
    split
    · rfl
    · rename_i hwins
      rw [not_or, Bool.not_eq_true] at hwins
      exact absurd (Number.lt_of_not_le hwins.1 Number.isNaN_zero hwins.2) h

theorem nanoseconds_toolTime (p : Path) (w : Waypoint) :
    (toolTime (lastTools p) w.modal).nanoseconds = changeSeconds p.getLast? w * 10 ^ 9 := by
  unfold toolTime lastTools changeSeconds
  cases p.getLast? with
  | none => rfl
  | some v =>
    dsimp only [Option.map_some]
    simp only [eq_comm (b := w.modal.tool)]
    split_ifs <;> rfl

theorem moveTime_endPoint (p : Path) (w : Waypoint) :
    moveTime (endPoint p) w = .ofSeconds (motionSeconds p.getLast? w) := by
  have hstart : endPoint p = p.getLast?.elim .origin (·.point) := by
    rw [endPoint, List.getLastD_eq_getLast?]
    cases p.getLast? <;> rfl
  rw [moveTime_eq, hstart, motionSeconds]
  cases w.motion with
  | unset | clockwise | counterclockwise => exact ofSeconds_zero.symm
  | dwell => exact congrArg Span.ofSeconds (larger_zero _)
  | rapid | linear => rfl

def totalTime (p : Path) : Nat := ((successions p).map fun s => addedTime s.1 s.2).sum

theorem totalTime_concat (p : Path) (w : Waypoint) :
    totalTime (p ++ [w]) = totalTime p + addedTime p.getLast? w := by
  simp [totalTime, successions]

theorem totalTime_eq (p : Path) : totalTime p = changeTime p + roundedTime p := by
  induction p using List.reverseRecOn with
  | nil => rfl
  | append_singleton p w ih =>
    rw [totalTime_concat, changeTime_concat, roundedTime_concat, nanoseconds_toolTime,
      moveTime_endPoint, ih, addedTime]
    omega

theorem totalTime_le_append (p q : Path) : totalTime p ≤ totalTime (p ++ q) := by
  induction q using List.reverseRecOn with
  | nil => rw [List.append_nil]
  | append_singleton q w ih =>
    rw [← List.append_assoc, totalTime_concat]
    omega

theorem nanoseconds_runningTime (p : Path) :
    (runningTime p).nanoseconds = min Span.longest.nanoseconds (totalTime p) := by
  rw [runningTime_eq, totalTime_eq]

end Parts

/-- The running time is the sum of what the waypoints add, cut off at the longest span. It does not go
down when a path goes on, and the longest span stays the longest. -/
theorem runningTime_sum (p : Path) :
    (∃! parts, Parts p parts) ∧
      (∀ parts, Parts p parts →
        (runningTime p).nanoseconds = min Span.longest.nanoseconds parts.sum) ∧
      (∀ q, (runningTime p).nanoseconds ≤ (runningTime (p ++ q)).nanoseconds) ∧
      (runningTime p = .longest → ∀ q, runningTime (p ++ q) = .longest) := by
  have hgrows : ∀ q, (runningTime p).nanoseconds ≤ (runningTime (p ++ q)).nanoseconds := by
    intro q
    rw [nanoseconds_runningTime, nanoseconds_runningTime]
    exact min_le_min_left _ (totalTime_le_append p q)
  refine ⟨⟨_, parts_iff.2 rfl, fun parts h => (parts_iff.1 h).symm⟩, ?_, hgrows, ?_⟩
  · intro parts hparts
    rw [nanoseconds_runningTime, totalTime, parts_iff.1 hparts]
  · intro hlongest q
    have hle : (runningTime (p ++ q)).nanoseconds ≤ Span.longest.nanoseconds := by
      rw [nanoseconds_runningTime]
      exact min_le_left _ _
    have hgrown := hgrows q
    rw [hlongest] at hgrown
    exact congrArg Span.mk (le_antisymm hle hgrown)

/-- A dwell that is too long for the longest span, and a change of tools. -/
def endlessDwell : Path :=
  [⟨{ Modal.initial with motion := .dwell, dwellTime := 1e20 }, .origin⟩]

theorem endlessDwell_longest : runningTime endlessDwell = .longest ∧
    ∀ q, runningTime (endlessDwell ++ q) = .longest := by
  have hlongest : runningTime endlessDwell = .longest := by decide +kernel
  exact ⟨hlongest, (runningTime_sum endlessDwell).2.2.2 hlongest⟩

end Toolpath.Path
