import Toolpath.Proofs.Job.Validation
import Toolpath.Proofs.Machine.Additions
import Toolpath.Proofs.Path.Commuting

/-!
# Dwells

A machine waits only where the tool already is, so a dwell goes neither down nor up and the passes
for speed leave it alone. The passes that drop waypoints drop moves only.
-/

namespace Toolpath

namespace Path

open Toolpath.Geometry (Point)

def dwells (p : Path) : Path := p.filter fun w => w.motion = .dwell

/-- The tool waits only where it has come to. -/
def DwellsInPlace (p : Path) : Prop :=
  ∀ before w, (before, w) ∈ histories p → w.motion = .dwell → w.point = endPoint before

variable {p before : Path} {w : Waypoint}

theorem dwells_append (p q : Path) : dwells (p ++ q) = dwells p ++ dwells q :=
  List.filter_append p q

theorem dwells_of_moves (h : ∀ w ∈ p, w.motion ≠ .dwell) : dwells p = [] := by
  simpa [dwells] using h

theorem dwells_of_move (h : w.motion ≠ .dwell) : dwells [w] = [] :=
  dwells_of_moves (by simpa using h)

theorem motion_withMotion (w : Waypoint) (m : Motion) : (w.withMotion m).motion = m := rfl

section InPlace

theorem dwellsInPlace_nil : DwellsInPlace [] := by
  intro before w h
  cases h

theorem dwellsInPlace_concat : DwellsInPlace (p ++ [w]) ↔
    DwellsInPlace p ∧ (w.motion = .dwell → w.point = endPoint p) := by
  constructor
  · intro h
    refine ⟨fun before v hv => ?_, h p w (by simp)⟩
    exact h before v (by simp [hv])
  · rintro ⟨hp, hw⟩ before v hv
    rw [histories_concat, List.mem_append, List.mem_singleton] at hv
    rcases hv with hv | hv
    · exact hp before v hv
    · obtain ⟨rfl, rfl⟩ := Prod.mk.inj hv
      exact hw

theorem DwellsInPlace.append_moves (hp : DwellsInPlace p) {moves : Path}
    (h : ∀ w ∈ moves, w.motion ≠ .dwell) : DwellsInPlace (p ++ moves) := by
  induction moves using List.reverseRecOn with
  | nil => rwa [List.append_nil]
  | append_singleton moves w ih =>
    rw [← List.append_assoc]
    refine dwellsInPlace_concat.2 ⟨ih fun v hv => h v (by simp [hv]), fun hw => ?_⟩
    exact absurd hw (h w (by simp))

end InPlace

section Drilling

theorem redrilled_of_dwell (h : w.motion = .dwell) : redrilled before w = [w] := by
  refine if_neg fun hplunge => ?_
  cases h.symm.trans hplunge.linear

theorem redrilled_of_move (h : w.motion ≠ .dwell) :
    ∀ v ∈ redrilled before w, v.motion ≠ .dwell := by
  rcases redrilled_cases before w with hout | ⟨depth, -, -, ⟨-, hout⟩ | ⟨-, hout⟩⟩ <;> rw [hout]
  · simp [h]
  · simp [motion_withMotion]
  · simp [motion_withMotion, h]

theorem endPoint_redrilled (q before : Path) (w : Waypoint) :
    endPoint (q ++ redrilled before w) = w.point := by
  rcases redrilled_cases before w with hout | ⟨depth, -, -, ⟨-, hout⟩ | ⟨-, hout⟩⟩ <;> rw [hout]
  · exact endPoint_concat q w
  · exact endPoint_concat q (w.withMotion .rapid)
  · simp [endPoint]

theorem endPoint_redrill (p : Path) : endPoint (redrill p) = endPoint p := by
  rcases List.eq_nil_or_concat p with rfl | ⟨p, w, rfl⟩
  · rfl
  · rw [List.concat_eq_append, redrill_concat, endPoint_redrilled, endPoint_concat]

theorem dwells_drill (p : Path) : dwells (drill p) = dwells p := by
  rw [drill_eq_redrill]
  induction p using List.reverseRecOn with
  | nil => rfl
  | append_singleton p w ih =>
    rw [redrill_concat, dwells_append, dwells_append, ih]
    by_cases hw : w.motion = .dwell
    · rw [redrilled_of_dwell hw]
    · rw [dwells_of_moves (redrilled_of_move hw), dwells_of_move hw]

theorem DwellsInPlace.drill (hp : DwellsInPlace p) : DwellsInPlace (drill p) := by
  rw [drill_eq_redrill]
  induction p using List.reverseRecOn with
  | nil => exact dwellsInPlace_nil
  | append_singleton p w ih =>
    obtain ⟨hp, hplace⟩ := dwellsInPlace_concat.1 hp
    rw [redrill_concat]
    by_cases hw : w.motion = .dwell
    · rw [redrilled_of_dwell hw]
      refine dwellsInPlace_concat.2 ⟨ih hp, fun hw => ?_⟩
      rw [hplace hw, endPoint_redrill]
    · exact (ih hp).append_moves (redrilled_of_move hw)

end Drilling

section Lifting

theorem rises_to_same {last : Point} (h : w.point = last) : rises last w = false := by
  simp [rises, h, Number.lt_iff]

theorem DwellsInPlace.dwells_lift (hp : DwellsInPlace p) : dwells (lift p) = dwells p := by
  induction p using List.reverseRecOn with
  | nil => rfl
  | append_singleton p w ih =>
    obtain ⟨hp, hplace⟩ := dwellsInPlace_concat.1 hp
    rw [lift_concat, dwells_append, dwells_append, ih hp]
    by_cases hw : w.motion = .dwell
    · rw [rises_to_same (hplace hw)]
      rfl
    · have hmove : (if rises (endPoint p) w then w.withMotion .rapid else w).motion ≠ .dwell := by
        split
        · simp [motion_withMotion]
        · exact hw
      rw [dwells_of_move hmove, dwells_of_move hw]

end Lifting

theorem Edits.dwells_eq {f : Path → Path} (hf : Edits f) (p : Path) :
    dwells (f p) = dwells p := by
  have hstill : ∀ q : Path, dwells q = dwells (q.filter (!·.motion.travels)) := by
    intro q
    rw [dwells, dwells, List.filter_filter]
    refine List.filter_congr fun w _ => ?_
    cases hw : w.motion <;> rfl
  rw [hstill, hf.filter_not_travels, ← hstill]

end Path

namespace Machine

open Toolpath.Path (DwellsInPlace dwellsInPlace_nil dwellsInPlace_concat endPoint)
open Program (Block)

variable {m : Machine}

theorem position_eq_endPoint (m : Machine) : m.position.point = endPoint m.path.toList := by
  rw [position, endPoint, List.getLastD_eq_getLast?, Array.getLast?_toList]

theorem dwellsInPlace_apply (h : DwellsInPlace m.path.toList) (b : Block) :
    DwellsInPlace (m.apply b).machine.path.toList := by
  obtain ⟨waits, moves, hadds⟩ := apply_adds m b
  have hmoves : ∀ w ∈ moves, w.motion ≠ .dwell := by
    intro w hw hdwell
    rcases hadds.motions with ⟨-, hstraight⟩ | ⟨-, hchords⟩
    · simpa [hdwell] using hstraight w hw
    · simpa [hdwell] using hchords w hw
  have hwaits : DwellsInPlace (m.path.toList ++ waits) := by
    obtain ⟨hone, hplace⟩ := hadds.wait
    rcases List.eq_nil_or_concat waits with rfl | ⟨front, w, rfl⟩
    · rwa [List.append_nil]
    · obtain rfl : front = [] := List.eq_nil_of_length_eq_zero (by simpa using hone)
      refine dwellsInPlace_concat.2 ⟨h, fun _ => ?_⟩
      rw [← position_eq_endPoint]
      exact (hplace w (by simp)).2
  rw [hadds.path]
  exact hwaits.append_moves hmoves

theorem dwellsInPlace_runBlock (h : DwellsInPlace m.path.toList) (b : Block) :
    DwellsInPlace (m.runBlock b).machine.path.toList := by
  by_cases hempty : b.isEmpty = true
  · rw [runBlock, if_pos hempty]
    exact h
  · rw [runBlock, if_neg hempty]
    exact dwellsInPlace_apply h b

theorem dwellsInPlace_of_reachable (h : Reachable m) : DwellsInPlace m.path.toList := by
  have hstart : DwellsInPlace [.initial] :=
    dwellsInPlace_concat.2 ⟨dwellsInPlace_nil, fun hw => by cases hw⟩
  induction h with
  | initial => exact hstart
  | withTolerances ht =>
    obtain rfl := eq_atOrigin_of_withTolerances ht
    exact hstart
  | runBlock b _ ih => exact dwellsInPlace_runBlock ih b

end Machine

namespace Job

open Toolpath.Path (dwells DwellsInPlace)

/-- Of all that is asked for, only what makes moves faster or fewer. -/
def Passes.onlyShaping (s : Passes) : Passes :=
  { Passes.none with
    drill := s.drill
    lift := s.lift
    straighten := s.straighten
    simplify := s.simplify
    tolerance := s.tolerance }

theorem Passes.dwells_onlyIf {f : Path → Path} {p : Path} (h : dwells (f p) = dwells p)
    (on : Bool) : dwells (onlyIf on f p) = dwells p := by
  cases on with
  | true => exact h
  | false => rfl

/-- Whatever a machine has run, no dwell is lost or changed. -/
theorem shaping_keeps_dwells {m : Machine} (hm : Machine.Reachable m)
    (program : List Program.Block) (s : Passes) :
    dwells (s.onlyShaping.apply (m.run program).machine.path.toList).path =
      dwells (m.run program).machine.path.toList := by
  have hplace := Machine.dwellsInPlace_of_reachable (Machine.reachable_runFrom hm 1 program)
  rw [Machine.run]
  generalize (m.runFrom 1 program).machine.path.toList = p at hplace ⊢
  obtain ⟨drilled, hdrilled⟩ : ∃ q, q = Passes.onlyIf s.drill Path.drill p := ⟨_, rfl⟩
  obtain ⟨lifted, hlifted⟩ : ∃ q, q = Passes.onlyIf s.lift Path.lift drilled := ⟨_, rfl⟩
  have hpath : (s.onlyShaping.apply p).path = Passes.onlyIf s.simplify
      (Path.simplify s.toleranceInForce) (Passes.onlyIf s.straighten Path.straighten lifted) := by
    rw [hlifted, hdrilled]
    rfl
  -- the lift pass relies on what drilling leaves of the path
  have hstill : DwellsInPlace drilled :=
    hdrilled ▸ Passes.onlyIf_keeps (fun _ h => h.drill) s.drill hplace
  calc dwells (s.onlyShaping.apply p).path
      = dwells (Passes.onlyIf s.straighten Path.straighten lifted) := by
        rw [hpath]
        exact Passes.dwells_onlyIf ((Path.edits_simplify _).dwells_eq _) s.simplify
    _ = dwells lifted := Passes.dwells_onlyIf (Path.edits_straighten.dwells_eq _) s.straighten
    _ = dwells drilled := hlifted ▸ Passes.dwells_onlyIf hstill.dwells_lift s.lift
    _ = dwells p := hdrilled ▸ Passes.dwells_onlyIf (Path.dwells_drill p) s.drill

/-- Waits at the bottom of a hole, drills it deeper and waits again. -/
def waitingTwice : List Program.Block :=
  [⟨[⟨'G', 0⟩, ⟨'Z', 5⟩], none⟩, ⟨[⟨'G', 1⟩, ⟨'Z', -1⟩, ⟨'F', 100⟩], none⟩,
    ⟨[⟨'G', 4⟩, ⟨'P', 2⟩], none⟩, ⟨[⟨'Z', 5⟩], none⟩, ⟨[⟨'Z', -2⟩], none⟩,
    ⟨[⟨'G', 4⟩, ⟨'P', 1⟩], none⟩, ⟨[⟨'Z', 5⟩], none⟩]

def allShaping : Passes :=
  { Passes.none with drill := true, lift := true, straighten := true, simplify := true }

theorem waitingTwice_keeps_dwells : Machine.Reachable .initial ∧
    (Machine.initial.run waitingTwice).fault.isNone ∧
    (dwells (Machine.initial.run waitingTwice).machine.path.toList).length = 2 ∧
    dwells (allShaping.onlyShaping.apply
      (Machine.initial.run waitingTwice).machine.path.toList).path =
        dwells (Machine.initial.run waitingTwice).machine.path.toList := by
  exact ⟨.initial, by decide +kernel, by decide +kernel,
    shaping_keeps_dwells .initial waitingTwice allShaping⟩

end Job

end Toolpath
