import Toolpath.Job.Compilation
import Toolpath.Proofs.Machine.Reachable
import Toolpath.Proofs.Path.Numbers
import Toolpath.Settings.Resolution

/-!
# What validation excludes

Settings that pass validation give paths whose coordinates are numbers, unless the safety height is
none: it is the one parameter that is not looked at.
-/

namespace Toolpath

open Toolpath.Path (Waypoint NaNFree ChangesLevel safetyHeight)

section Interpretation

variable {t : Machine.Tolerances} {m : Machine}

theorem Machine.reachable_runFrom (h : Reachable m) (number : Nat) (bs : List Program.Block) :
    Reachable (m.runFrom number bs).machine := by
  induction bs generalizing m number with
  | nil => exact h
  | cons b bs ih =>
    have hstep : Reachable (m.runBlock b).machine := .runBlock b h
    unfold runFrom
    cases hrun : m.runBlock b with
    | mk n fault =>
      rw [hrun] at hstep
      cases fault with
      | none => exact ih hstep (number + 1)
      | some fault => exact hstep

theorem Machine.nanFree_path (h : Reachable m) : NaNFree m.path.toList := by
  obtain ⟨added, hpath, hadded⟩ := (reachable_sound h).1.path
  rw [hpath]
  intro w hw
  rcases List.mem_cons.1 hw with rfl | hw
  · decide
  · exact (hadded w hw).number

theorem Machine.withTolerances_of_positive (hd : 0 < t.deviation ∧ t.deviation.isFinite)
    (hl : 0 < t.chordLength ∧ t.chordLength.isFinite) :
    Machine.withTolerances t = .ok (Machine.atOrigin t) := by
  have hcheck : t.check = .ok () := by
    unfold Tolerances.check positive
    rw [if_pos hd, if_pos hl]
    rfl
  rw [Machine.withTolerances, hcheck]
  rfl

namespace Job

theorem interpret_cases {text : List Char} (h : Machine.withTolerances t = .ok m) :
    (∃ e, interpret t text = .error (.badProgram e)) ∨
      ∃ blocks n, (m.run blocks).machine = n ∧ (interpret t text = .ok n.path.toList ∨
        ∃ f, interpret t text = .error (.stopped f)) := by
  cases hblocks : Program.blocks text with
  | error e =>
    refine .inl ⟨e, ?_⟩
    simp only [interpret, hblocks, Except.mapError, bind, Except.bind]
  | ok blocks =>
    refine .inr ⟨blocks, _, rfl, ?_⟩
    simp only [interpret, hblocks, h, Except.mapError, bind, Except.bind]
    cases m.run blocks with
    | mk n fault =>
      cases fault with
      | none => exact .inl rfl
      | some f => exact .inr ⟨f, rfl⟩

theorem compile_of_ok {passes : Passes} {text : List Char} {p : Path}
    (h : interpret t text = .ok p) : compile t passes text = finish (passes.apply p) := by
  rw [compile, h]

theorem compile_of_error {passes : Passes} {text : List Char} {f : Failure}
    (h : interpret t text = .error f) : compile t passes text = ⟨.error f, []⟩ := by
  rw [compile, h]

theorem finish_ne_badTolerances (a : Passes.Applied) (f : Machine.Fault) :
    (finish a).result ≠ .error (.badTolerances f) := by
  unfold finish
  dsimp only
  split <;> simp

end Job

end Interpretation

namespace Job

section Passes

variable {s : Passes} {p q : Path}

def Passes.shaped (s : Passes) (p : Path) : Path :=
  s.reshape (s.routed (Passes.onlyIf s.drill Path.drill p)).1

/-- The safety pass moves no waypoint. -/
def KeepsLevels (p : Path) : Prop :=
  (Waypoint.initial :: p).IsChain fun v w => ¬ ChangesLevel (safetyHeight p) v w

theorem Passes.onlyIf_keeps {P : Path → Prop} {f : Path → Path} (hf : ∀ p, P p → P (f p))
    (on : Bool) (hp : P p) : P (onlyIf on f p) := by
  unfold onlyIf
  split
  · exact hf p hp
  · exact hp

theorem Passes.withValue_keeps {α : Type} {P : Path → Prop} {value : Option α}
    {f : α → Path → Path} (hf : ∀ a ∈ value, ∀ p, P p → P (f a p)) (hp : P p) :
    P (withValue value f p) := by
  unfold withValue
  split
  · exact hf _ rfl p hp
  · exact hp

theorem Passes.routed_keeps {P : Path → Prop}
    (hroute : ∀ q, Path.route s.toleranceInForce p = .ok q → P q) (hp : P p) :
    P (s.routed p).1 := by
  unfold routed
  split
  · split
    · exact hroute _ ‹_›
    · exact hp
  · exact hp

theorem nanFree_shaped (hfactor : ∀ x ∈ s.moveMultiplier, 0 < x ∧ x.isFinite = true)
    (hp : NaNFree p) : NaNFree (s.shaped p) := by
  unfold Passes.shaped Passes.reshape
  refine Passes.withValue_keeps (fun _ _ _ h => h.mapModal _) ?_
  refine Passes.withValue_keeps (fun _ _ _ h => h.mapModal _) ?_
  refine Passes.withValue_keeps (fun x hx _ h => h.scaleMoves (hfactor x hx).1 (hfactor x hx).2) ?_
  refine Passes.withValue_keeps (fun _ _ _ h => h.mapModal _) ?_
  refine Passes.onlyIf_keeps (fun _ h => h.swapXY) _ ?_
  refine Passes.onlyIf_keeps (fun _ h => h.mono fun _ => (Path.edits_simplify _).mem) _ ?_
  refine Passes.onlyIf_keeps (fun _ h => h.mono fun _ => Path.edits_straighten.mem) _ ?_
  refine Passes.onlyIf_keeps (fun _ h => h.lift) _ ?_
  have hdrilled := Passes.onlyIf_keeps (fun _ h => h.drill) s.drill hp
  exact Passes.routed_keeps (fun _ h => hdrilled.route h) hdrilled

theorem nanFree_home_iff : NaNFree (s.home p) ↔ NaNFree p := by
  unfold Passes.home Passes.onlyIf
  split
  · exact Path.nanFree_returnHome_iff _
  · exact Iff.rfl

theorem apply_cases (h : (finish (s.apply p)).result = .ok q) :
    (s.safetyHeight = none ∧ q = s.home (s.shaped p)) ∨
      ∃ height r, s.safetyHeight = some height ∧
        Path.setSafetyHeight height (s.shaped p) = .ok r ∧ q = s.home r := by
  unfold Passes.apply at h
  cases hs : s.safetyHeight with
  | none =>
    simp only [hs] at h
    exact .inl ⟨rfl, (Except.ok.inj h).symm⟩
  | some height =>
    simp only [hs] at h
    cases hr : Path.setSafetyHeight height (s.shaped p) with
    | error e =>
      rw [Passes.shaped] at hr
      rw [hr] at h
      cases h
    | ok r =>
      rw [Passes.shaped] at hr
      rw [hr] at h
      exact .inr ⟨height, r, rfl, hr, (Except.ok.inj h).symm⟩

theorem nanFree_finish_iff (hp : NaNFree (s.shaped p))
    (h : (finish (s.apply p)).result = .ok q) :
    NaNFree q ↔ ∀ height, s.safetyHeight = some height → height.isNaN = true →
      KeepsLevels (s.shaped p) := by
  rcases apply_cases h with ⟨hs, rfl⟩ | ⟨height, r, hs, hset, rfl⟩
  · rw [nanFree_home_iff, hs]
    exact iff_of_true hp fun _ hsome => nomatch hsome
  · rw [nanFree_home_iff, hs, Path.eq_of_setSafetyHeight hset]
    by_cases hnan : height.isNaN = true
    · rw [show Geometry.Point.origin = Waypoint.initial.point from rfl,
        Path.nanFree_moveLevels_iff hp hnan]
      exact ⟨fun hkept _ _ _ => hkept, fun hkept => hkept height rfl hnan⟩
    · rw [Bool.not_eq_true] at hnan
      refine iff_of_true (hp.moveLevels hnan _) fun other hsome hother => ?_
      rw [← Option.some.inj hsome, hnan] at hother
      cases hother

end Passes

section Settings

variable {s : Settings}

theorem isPositive_of_valid (h : s.invalid? = none) (name : String) {x : Float}
    (hmem : (name, some x) ∈ s.positives) : 0 < x ∧ x.isFinite = true := by
  have hfirst : s.firstNotPositive = none := (Option.or_eq_none_iff.1 h).1
  have hx := List.findSome?_eq_none_iff.1 hfirst _ hmem
  simpa [Settings.isPositive] using hx

/-- With settings that pass validation a program is never refused for its tolerances. A coordinate
of the result is no number only where a safety height that is none has moved a waypoint. -/
theorem compile_valid {s : Settings} (h : s.invalid? = none) (text : List Char) :
    (∀ f, (compile s.tolerances s.passes text).result ≠ .error (.badTolerances f)) ∧
      ∀ q, (compile s.tolerances s.passes text).result = .ok q →
        ∃ p, interpret s.tolerances text = .ok p ∧
          (NaNFree q ↔ ∀ height, s.passes.safetyHeight = some height → height.isNaN = true →
            KeepsLevels (s.passes.shaped p)) := by
  have hfactor : ∀ x ∈ s.passes.moveMultiplier, 0 < x ∧ x.isFinite = true := by
    intro x hx
    refine isPositive_of_valid h "move_multiplier" ?_
    simp [Settings.positives, Option.mem_def.1 hx]
  have hmachine : Machine.withTolerances s.tolerances = .ok (.atOrigin s.tolerances) :=
    Machine.withTolerances_of_positive
      (isPositive_of_valid h "max_arc_deviation" (by simp [Settings.positives]))
      (isPositive_of_valid h "min_arc_line_length" (by simp [Settings.positives]))
  have hreach := Machine.Reachable.withTolerances hmachine
  rcases interpret_cases hmachine with ⟨e, he⟩ | ⟨blocks, n, hn, hok | ⟨f, hf⟩⟩
  · rw [compile_of_error he]
    exact ⟨fun _ h => (by cases h), fun _ h => (by cases h)⟩
  · have hnumbers : NaNFree n.path.toList := by
      rw [← hn]
      exact Machine.nanFree_path (Machine.reachable_runFrom hreach 1 blocks)
    rw [compile_of_ok hok]
    refine ⟨finish_ne_badTolerances _, fun q hq => ⟨_, hok, ?_⟩⟩
    exact nanFree_finish_iff (nanFree_shaped hfactor hnumbers) hq
  · rw [compile_of_error hf]
    exact ⟨fun _ h => (by cases h), fun _ h => (by cases h)⟩

/-- The safety height is all that is asked for, and it is not a number. -/
def unchecked : Settings where
  input := "job.nc"
  tolerances := .standard
  passes := { Passes.none with safetyHeight := some Float.nan }
  json := true
  logLevel := "info"
  file := none

theorem unchecked_compile_valid : unchecked.invalid? = none ∧
    (∀ f, (compile unchecked.tolerances unchecked.passes "G0 Z5".toList).result ≠
      .error (.badTolerances f)) ∧
    ∀ q, (compile unchecked.tolerances unchecked.passes "G0 Z5".toList).result = .ok q →
      ∃ p, interpret unchecked.tolerances "G0 Z5".toList = .ok p ∧
        (NaNFree q ↔ ∀ height, unchecked.passes.safetyHeight = some height →
          height.isNaN = true → KeepsLevels (unchecked.passes.shaped p)) := by
  have hvalid : unchecked.invalid? = none := rfl
  exact ⟨hvalid, compile_valid hvalid _⟩

def makesNaN : Except Failure Path → Bool
  | .ok q => q.any (·.point.hasNaN)
  | .error _ => false

theorem exists_of_makesNaN {r : Except Failure Path} (h : makesNaN r = true) :
    ∃ q, r = .ok q ∧ ¬ NaNFree q := by
  cases r with
  | error f => cases h
  | ok q =>
    obtain ⟨w, hw, hnan⟩ := List.any_eq_true.1 h
    refine ⟨q, rfl, fun hq => ?_⟩
    rw [hq w hw] at hnan
    cases hnan

/-- Validation lets the height through, and the tool rises to nowhere. -/
theorem unchecked_counterexample : unchecked.invalid? = none ∧
    ∃ q, (compile unchecked.tolerances unchecked.passes "G0 Z5".toList).result = .ok q ∧
      ¬ NaNFree q :=
  ⟨rfl, exists_of_makesNaN (by decide +kernel)⟩

end Settings

end Job

end Toolpath
