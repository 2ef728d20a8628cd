import Toolpath.Proofs.Job.Validation
import Toolpath.Proofs.Path.Homing
import Toolpath.Proofs.Path.Start

/-!
# What a finished path is sure to be

Whichever passes run together, the feed limit, the spindle and the way home hold of the result: the
passes after them keep what they have set.
-/

namespace Toolpath.Job

open Toolpath.Path (Waypoint Modal Spindle Shutdown SameSettings StartsAtRest)
open Number (lt_iff le_iff)

structure HasSpindle (sp : Spindle) (w : Waypoint) : Prop where
  on : w.modal.spindleOn = sp.on
  clockwise : w.modal.spindleClockwise = sp.clockwise
  speed : w.modal.spindleSpeed = sp.speed

/-- A feedrate that is a number is not above the limit. -/
def KeepsLimit (limit : Float) (w : Waypoint) : Prop :=
  w.modal.feedrate.isNaN = false → w.modal.feedrate ≤ limit

/-- What holds before the way home. -/
structure Prepared (s : Passes) (p : Path) : Prop where
  nonempty : p ≠ []
  feedrates : ∀ limit ∈ s.feedLimit, ∀ w ∈ p, KeepsLimit limit w
  spindle : ∀ sp ∈ s.spindle, ∀ w ∈ p, HasSpindle sp w

/-- What holds of a finished path. Only its last waypoint may be shut down. -/
structure Guaranteed (s : Passes) (front : Path) (last : Waypoint) : Prop where
  feedrates : ∀ limit ∈ s.feedLimit, ∀ w ∈ front ++ [last], KeepsLimit limit w
  spindle : ∀ sp ∈ s.spindle, (∀ w ∈ front, HasSpindle sp w) ∧
    HasSpindle { sp with on := sp.on && !(s.returnHome && s.disableSpindle) } last
  home : s.returnHome = true → Path.atOrigin last = true ∧
    (s.disableCoolant = true → last.modal.mist = false ∧ last.modal.flood = false)

variable {s : Passes} {p q : Path}

theorem Prepared.of_sameSettings (hp : Prepared s p) (hq : q ≠ [])
    (h : ∀ w ∈ q, ∃ v ∈ p, SameSettings v w) : Prepared s q := by
  refine ⟨hq, fun limit hlimit w hw => ?_, fun sp hsp w hw => ?_⟩
  · obtain ⟨v, hv, motion, hmodal⟩ := h w hw
    have hfeed := hp.feedrates limit hlimit v hv
    unfold KeepsLimit at hfeed ⊢
    rw [hmodal]
    exact hfeed
  · obtain ⟨v, hv, motion, hmodal⟩ := h w hw
    obtain ⟨hon, hclockwise, hspeed⟩ := hp.spindle sp hsp v hv
    constructor <;> rw [hmodal] <;> assumption

section Preparation

variable {limit : Float}

theorem mem_mapModal {f : Modal → Modal} {w : Waypoint} :
    w ∈ Path.mapModal f p ↔ ∃ v ∈ p, { v with modal := f v.modal } = w := List.mem_map

theorem keepsLimit_limitFeedrate (hlimit : limit.isNaN = false) :
    ∀ w ∈ Path.limitFeedrate limit p, KeepsLimit limit w := by
  intro w hw hnumber
  obtain ⟨v, -, rfl⟩ := mem_mapModal.1 hw
  dsimp only at hnumber ⊢
  split
  · rw [le_iff]
    exact ⟨hlimit, hlimit, le_rfl⟩
  · rename_i hfeed
    rw [if_neg hfeed] at hnumber
    rw [lt_iff, and_iff_right hlimit, and_iff_right hnumber] at hfeed
    rw [le_iff]
    exact ⟨hnumber, hlimit, not_lt.1 hfeed⟩

theorem hasSpindle_forceSpindle (sp : Spindle) :
    ∀ w ∈ Path.forceSpindle sp p, HasSpindle sp w := by
  intro w hw
  obtain ⟨v, -, rfl⟩ := mem_mapModal.1 hw
  exact ⟨rfl, rfl, rfl⟩

theorem keepsLimit_forceSpindle {sp : Spindle} (h : ∀ w ∈ p, KeepsLimit limit w) :
    ∀ w ∈ Path.forceSpindle sp p, KeepsLimit limit w := by
  intro w hw
  obtain ⟨v, hv, rfl⟩ := mem_mapModal.1 hw
  exact h v hv

theorem Passes.withValue_ensures {α : Type} {Q : α → Path → Prop} {value : Option α}
    {f : α → Path → Path} (hf : ∀ a ∈ value, ∀ p, Q a (f a p)) (p : Path) :
    ∀ a ∈ value, Q a (withValue value f p) := by
  intro a ha
  obtain rfl := Option.mem_def.1 ha
  exact hf a rfl p

theorem map_ne_nil {f : Waypoint → Waypoint} (hp : p ≠ []) : p.map f ≠ [] :=
  fun h => hp (List.map_eq_nil_iff.1 h)

theorem shaped_ne_nil (hp : StartsAtRest p) : s.shaped p ≠ [] := by
  unfold Passes.shaped Passes.reshape
  refine Passes.withValue_keeps (P := (· ≠ [])) (fun _ _ _ => map_ne_nil) ?_
  refine Passes.withValue_keeps (P := (· ≠ [])) (fun _ _ _ => map_ne_nil) ?_
  refine Passes.withValue_keeps (P := (· ≠ [])) (fun _ _ _ => map_ne_nil) ?_
  refine Passes.withValue_keeps (P := (· ≠ [])) (fun _ _ _ => map_ne_nil) ?_
  refine Passes.onlyIf_keeps (P := (· ≠ [])) (fun _ => map_ne_nil) _ (StartsAtRest.ne_nil ?_)
  -- The passes before the swap may drop waypoints, but not the first.
  refine Passes.onlyIf_keeps (fun _ h => h.edited (Path.edits_simplify _)) _ ?_
  refine Passes.onlyIf_keeps (fun _ h => h.edited Path.edits_straighten) _ ?_
  refine Passes.onlyIf_keeps (fun _ h => h.lift) _ ?_
  have hdrilled := Passes.onlyIf_keeps (fun _ h => h.drill) s.drill hp
  exact Passes.routed_keeps (fun _ h => hdrilled.route h) hdrilled

/-- The feed limit comes after the multiplier, and the spindle after both. -/
theorem prepared_shaped (hlimit : ∀ limit ∈ s.feedLimit, limit.isNaN = false)
    (hp : StartsAtRest p) : Prepared s (s.shaped p) := by
  refine ⟨shaped_ne_nil hp, ?_, ?_⟩
  · refine Passes.withValue_keeps
      (P := fun p => ∀ limit ∈ s.feedLimit, ∀ w ∈ p, KeepsLimit limit w) ?_ ?_
    · intro sp _ p hp limit hmem
      exact keepsLimit_forceSpindle (hp limit hmem)
    · exact Passes.withValue_ensures (f := Path.limitFeedrate)
        (Q := fun limit p => ∀ w ∈ p, KeepsLimit limit w)
        (fun limit hmem _ => keepsLimit_limitFeedrate (hlimit limit hmem)) _
  · exact Passes.withValue_ensures (f := Path.forceSpindle)
      (Q := fun sp p => ∀ w ∈ p, HasSpindle sp w) (fun sp _ _ => hasSpindle_forceSpindle sp) _

theorem prepared_moveLevels (hp : Prepared s p) (old new : Float) (last : Geometry.Point) :
    Prepared s (Path.walk (Path.moveLevel old new) last p) := by
  have hmodals := Path.map_modal_moveLevels old new last p
  refine hp.of_sameSettings ?_ fun w hw => ?_
  · intro hnil
    rw [hnil] at hmodals
    exact hp.nonempty (List.map_eq_nil_iff.1 hmodals.symm)
  · have hmem := List.mem_map_of_mem (f := (·.modal)) hw
    rw [hmodals] at hmem
    obtain ⟨v, hv, hmodal⟩ := List.mem_map.1 hmem
    exact ⟨v, hv, v.modal.motion, hmodal.symm⟩

end Preparation

section Home

variable {limit : Float} {w : Waypoint}

theorem KeepsLimit.shutDown (h : KeepsLimit limit w) (d : Shutdown) : KeepsLimit limit (d.apply w) :=
  h

theorem HasSpindle.shutDown {sp : Spindle} (h : HasSpindle sp w) (d : Shutdown) :
    HasSpindle { sp with on := sp.on && !d.spindle } (d.apply w) where
  on := by rw [← h.on]; rfl
  clockwise := h.clockwise
  speed := h.speed

theorem guaranteed_home (hp : Prepared s p) :
    ∃ front last, s.home p = front ++ [last] ∧ Guaranteed s front last := by
  unfold Passes.home Passes.onlyIf
  by_cases hhome : s.returnHome = true
  · rw [if_pos hhome]
    obtain ⟨front, last, hpath, horigin, hsettings⟩ := Path.returnHome_eq_concat
      ⟨s.disableSpindle, s.disableCoolant⟩ hp.nonempty
    obtain ⟨-, hfeed, hspindle⟩ := hp.of_sameSettings (by simp) hsettings
    refine ⟨front, _, hpath, ⟨fun limit hlimit => ?_, fun sp hsp => ?_, fun _ => ⟨horigin, ?_⟩⟩⟩
    · have hall := hfeed limit hlimit
      rw [List.forall_mem_append, List.forall_mem_singleton] at hall ⊢
      exact ⟨hall.1, hall.2.shutDown _⟩
    · have hall := hspindle sp hsp
      rw [List.forall_mem_append, List.forall_mem_singleton] at hall
      rw [hhome, Bool.true_and]
      exact ⟨hall.1, hall.2.shutDown ⟨s.disableSpindle, s.disableCoolant⟩⟩
    · intro hcoolant
      simp [Shutdown.apply, hcoolant]
  · rw [if_neg hhome]
    obtain ⟨front, last, rfl⟩ := (List.eq_nil_or_concat p).resolve_left hp.nonempty
    rw [List.concat_eq_append] at hp ⊢
    refine ⟨front, last, rfl, hp.feedrates, fun sp hsp => ?_, fun h => absurd h hhome⟩
    have hall := hp.spindle sp hsp
    rw [List.forall_mem_append, List.forall_mem_singleton] at hall
    rw [Bool.not_eq_true] at hhome
    rw [hhome, Bool.false_and, Bool.not_false, Bool.and_true]
    exact hall

end Home

section Compilation

variable {t : Machine.Tolerances} {text : List Char}

theorem reachable_of_interpret (h : interpret t text = .ok p) :
    ∃ m, Machine.Reachable m ∧ m.path.toList = p := by
  cases hmachine : Machine.withTolerances t with
  | error f =>
    unfold interpret at h
    rw [hmachine] at h
    cases hblocks : Program.blocks text <;> rw [hblocks] at h <;> cases h
  | ok m =>
    rcases interpret_cases hmachine with ⟨e, he⟩ | ⟨blocks, n, hn, hok | ⟨f, hf⟩⟩
    · rw [he] at h
      cases h
    · rw [hok] at h
      refine ⟨n, ?_, Except.ok.inj h⟩
      rw [← hn]
      exact Machine.reachable_runFrom (.withTolerances hmachine) 1 blocks
    · rw [hf] at h
      cases h

theorem startsAtRest_interpret (h : interpret t text = .ok p) : StartsAtRest p := by
  obtain ⟨m, hreach, rfl⟩ := reachable_of_interpret h
  obtain ⟨added, hpath, -⟩ := (Machine.reachable_sound hreach).1.path
  exact Path.startsAtRest_iff.2 ⟨added, hpath⟩

theorem guaranteed_finish (hlimit : ∀ limit ∈ s.feedLimit, limit.isNaN = false)
    (hp : StartsAtRest p) (hq : (finish (s.apply p)).result = .ok q) :
    ∃ front last, q = front ++ [last] ∧ Guaranteed s front last := by
  have hshaped := prepared_shaped hlimit hp
  rcases apply_cases hq with ⟨-, rfl⟩ | ⟨height, r, -, hset, rfl⟩
  · exact guaranteed_home hshaped
  · rw [Path.eq_of_setSafetyHeight hset]
    exact guaranteed_home (prepared_moveLevels hshaped _ _ _)

/-- With settings that pass validation, all passes together leave what each was asked for. -/
theorem compile_guaranteed {s : Settings} (h : s.invalid? = none) {text : List Char} {q : Path}
    (hq : (compile s.tolerances s.passes text).result = .ok q) :
    ∃ front last, q = front ++ [last] ∧ Guaranteed s.passes front last := by
  have hlimit : ∀ limit ∈ s.passes.feedLimit, limit.isNaN = false := by
    intro limit hmem
    have hpositive := isPositive_of_valid h "feed_limit" (x := limit)
      (by simp [Settings.positives, Option.mem_def.1 hmem])
    exact (lt_iff.1 hpositive.1).2.1
  cases hp : interpret s.tolerances text with
  | error f =>
    rw [compile_of_error hp] at hq
    cases hq
  | ok p =>
    rw [compile_of_ok hp] at hq
    exact guaranteed_finish hlimit (startsAtRest_interpret hp) hq

def thorough : Settings where
  input := "job.nc"
  tolerances := .standard
  passes := { Passes.none with
    lift := true
    straighten := true
    simplify := true
    feedLimit := some 500
    feedMultiplier := some 2
    safetyHeight := some 10
    spindle := some ⟨true, false, 12000⟩
    returnHome := true
    disableSpindle := true
    disableCoolant := true }
  json := false
  logLevel := "info"
  file := none

/-- Cuts too fast once the feedrate is doubled, with the coolant on. -/
def cutting : List Char := "M8 F300\nG0 Z5\nG1 X10 Z-1\nX20\nG0 Z5".toList

theorem thorough_guaranteed : thorough.invalid? = none ∧
    ∃ q, (compile thorough.tolerances thorough.passes cutting).result = .ok q ∧
      ∃ front last, q = front ++ [last] ∧ Guaranteed thorough.passes front last := by
  have hvalid : thorough.invalid? = none := rfl
  have hrun : (compile thorough.tolerances thorough.passes cutting).result.isOk = true := by
    decide +kernel
  cases hq : (compile thorough.tolerances thorough.passes cutting).result with
  | error f =>
    rw [hq] at hrun
    cases hrun
  | ok q => exact ⟨hvalid, q, rfl, compile_guaranteed hvalid hq⟩

end Compilation

end Toolpath.Job
