import Mathlib.Data.List.TakeWhile
import Toolpath.Machine.Arc
import Toolpath.Proofs.Machine.History

/-!
# The waypoints of an arc

An arc that passes the checks is one list of waypoints: the ends of its chords and its own end.
They are added one after the other, up to the first whose place is not a number.
-/

namespace Toolpath.Machine

open Toolpath.Geometry (Point)
open Toolpath.Path (Waypoint Modal)

def isReal (w : Waypoint) : Bool := !w.point.hasNaN

/-- Adds waypoints up to the first whose place is not a number. -/
def travel (m : Machine) (ws : List Waypoint) : Outcome Fault where
  machine := m.withPath (m.path ++ ws.takeWhile isReal)
  fault := if ws.all isReal then none else some .notANumber

def chordModal (m : Machine) : Modal := { m.modal with motion := .linear }

/-- The start counts as the end of the chord before the first. Without chords only the end of the
arc is left. -/
def chordEnds (m : Machine) (a : Arc) : List Waypoint :=
  let chords := if a.chordCount m.tolerances = 0 then 0 else a.chordCount m.tolerances + 1
  (List.range chords).map fun i => m.chordTo (a.chordEnd (a.chordCount m.tolerances) i)

def waypointsOf (m : Machine) (a : Arc) : List Waypoint := m.chordEnds a ++ [m.chordTo a.finish]

variable (m : Machine)

section Travel

theorem travel_nil : m.travel [] = .done m := by
  simp [travel, withPath, Outcome.done]

theorem travel_cons (w : Waypoint) (ws : List Waypoint) :
    m.travel (w :: ws) = (m.push w).andThen (·.travel ws) := by
  cases hw : w.point.hasNaN with
  | false =>
    simp [travel, push, Outcome.andThen, Outcome.done, withPath, isReal, hw]
  | true =>
    simp [travel, push, Outcome.andThen, Outcome.stopped, withPath, isReal, hw]

theorem andThen_assoc {ε : Type} (o : Outcome ε) (f g : Machine → Outcome ε) :
    (o.andThen f).andThen g = o.andThen fun m => (f m).andThen g := by
  obtain ⟨k, fault⟩ := o
  cases fault <;> rfl

theorem travel_append (vs ws : List Waypoint) :
    m.travel (vs ++ ws) = (m.travel vs).andThen (·.travel ws) := by
  induction vs generalizing m with
  | nil =>
    rw [travel_nil]
    rfl
  | cons v vs ih =>
    simp only [List.cons_append, travel_cons, andThen_assoc, ih]

theorem travel_singleton (w : Waypoint) : m.travel [w] = m.push w := by
  rw [travel_cons]
  obtain ⟨k, fault⟩ := m.push w
  cases fault with
  | none => exact k.travel_nil
  | some e => rfl

theorem travel_of_real {ws : List Waypoint} (h : ws.all isReal = true) :
    m.travel ws = .done (m.withPath (m.path ++ ws)) := by
  have hall : ws.takeWhile isReal = ws := List.takeWhile_eq_self_iff.2 (List.all_eq_true.1 h)
  simp [travel, Outcome.done, h, hall]

theorem travel_of_unreal {ws : List Waypoint} (h : ws.all isReal = false) :
    m.travel ws = .stopped (m.withPath (m.path ++ ws.takeWhile isReal)) .notANumber := by
  simp [travel, Outcome.stopped, h]

theorem length_takeWhile_of_unreal {ws : List Waypoint} (h : ws.all isReal = false) :
    (ws.takeWhile isReal).length < ws.length := by
  refine Nat.lt_of_le_of_ne (List.takeWhile_sublist isReal).length_le fun hlength => ?_
  have hall := List.takeWhile_eq_self_iff.1 ((List.takeWhile_sublist isReal).eq_of_length hlength)
  rw [List.all_eq_true.2 hall] at h
  cases h

theorem pushEach_eq_travel (waypoint : Nat → Waypoint) (count i : Nat) :
    m.pushEach waypoint count i = m.travel ((List.range' i count).map waypoint) := by
  induction count generalizing m i with
  | zero => exact (travel_nil m).symm
  | succ count ih =>
    simp only [pushEach, List.range'_succ, List.map_cons, travel_cons, ih]

end Travel

variable {m} {finish center : Point} {rotations : Float}

theorem arc_of_refused {e : Fault} (h : m.checkArc finish center rotations = .error e) :
    m.arc finish center rotations = .stopped m e := by
  unfold arc
  rw [h]

theorem arc_of_checked (h : m.checkArc finish center rotations = .ok ()) :
    m.arc finish center rotations =
      m.travel (m.waypointsOf (m.arcOf finish center rotations)) := by
  unfold arc waypointsOf chordEnds
  simp only [h, travel_append, List.range_eq_range', ← pushEach_eq_travel, travel_singleton]

theorem checkArc_eq_ok : m.checkArc finish center rotations = .ok () ↔
    finish.hasNaN = false ∧ center.hasNaN = false ∧
      rotations.isNaN = false ∧ ¬ rotations < 1 ∧
      (m.arcOf finish center rotations).check = .ok () := by
  unfold checkArc
  split_ifs with hnumber hrotations
  · refine iff_of_false nofun ?_
    grind
  · refine iff_of_false nofun ?_
    grind
  · grind

theorem chordTo_finish (m : Machine) (finish center : Point) (rotations : Float) :
    m.chordTo (m.arcOf finish center rotations).finish = ⟨m.chordModal, finish⟩ := by
  unfold chordTo arcOf
  rw [Geometry.Plane.to_machine_to_local]
  rfl

theorem modal_of_mem_chordEnds {a : Arc} {w : Waypoint} (h : w ∈ m.chordEnds a) :
    w.modal = m.chordModal := by
  obtain ⟨i, -, rfl⟩ := List.mem_map.1 h
  rfl

theorem length_chordEnds (m : Machine) (a : Arc) : (m.chordEnds a).length =
    if a.chordCount m.tolerances = 0 then 0 else a.chordCount m.tolerances + 1 := by
  simp [chordEnds]

/-- An arc is refused by a check and changes nothing, or it adds linear moves with the settings in
force and changes nothing but the path. If all chords end at real places, it arrives exactly at the
end asked for. Otherwise it stops among its chords. -/
theorem arc_outcome (m : Machine) (finish center : Point) (rotations : Float) :
    (∃ e, m.checkArc finish center rotations = .error e ∧
        m.arc finish center rotations = .stopped m e) ∨
      m.checkArc finish center rotations = .ok () ∧
        ∃ ws : List Waypoint,
          (m.arc finish center rotations).machine = m.withPath (m.path ++ ws) ∧
          (∀ w ∈ ws, w.modal = m.chordModal) ∧
          let steps := (m.arcOf finish center rotations).chordCount m.tolerances
          ((m.arc finish center rotations).fault = none ∧
              ws.getLast?.map (·.point) = some finish ∧
              ws.length = (if steps = 0 then 1 else steps + 2) ∨
            (m.arc finish center rotations).fault = some .notANumber ∧ ws.length ≤ steps) := by
  cases hcheck : m.checkArc finish center rotations with
  | error e => exact .inl ⟨e, rfl, arc_of_refused hcheck⟩
  | ok u =>
    have hfinish := m.chordTo_finish finish center rotations
    have hlast : isReal ⟨m.chordModal, finish⟩ = true := by
      simp [isReal, (checkArc_eq_ok.1 hcheck).1]
    rw [arc_of_checked hcheck, waypointsOf, hfinish]
    generalize m.arcOf finish center rotations = a
    have hlength := m.length_chordEnds a
    refine .inr ⟨rfl, ?_⟩
    cases hreal : (m.chordEnds a).all isReal with
    | true =>
      rw [travel_of_real m (by simp [hreal, hlast])]
      refine ⟨_, rfl, ?_, .inl ⟨rfl, by simp, ?_⟩⟩
      · intro w hw
        rcases List.mem_append.1 hw with hw | hw
        · exact modal_of_mem_chordEnds hw
        · rw [List.mem_singleton.1 hw]
      · rw [List.length_append, hlength]
        split <;> rfl
    | false =>
      rw [travel_append, travel_of_unreal m hreal]
      refine ⟨_, rfl, ?_, .inr ⟨rfl, ?_⟩⟩
      · exact fun w hw => modal_of_mem_chordEnds ((List.takeWhile_sublist isReal).mem hw)
      · have hshort := length_takeWhile_of_unreal hreal
        rw [hlength] at hshort
        split at hshort <;> omega

end Toolpath.Machine
