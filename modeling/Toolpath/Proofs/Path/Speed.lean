import Toolpath.Proofs.Path.Commuting
import Toolpath.Proofs.Path.Edits
import Toolpath.Proofs.Path.ExactTime

/-!
# Passes that save time

Repeated drilling and lifts at rapid speed save time on each move. A pass that drops waypoints
leaves shortcuts, but a waypoint that takes the place of another brings its own feedrate along.
-/

namespace Toolpath.Path

open Toolpath.Geometry (Point Within position)
open Number (value roundoff grain)

variable {p : Path} {v w : Waypoint}

section Pace

theorem Waypoint.InRange.feed_pos (h : w.InRange) : 0 < value (Path.feed w.modal) :=
  (one_div_pos.2 (by positivity)).trans_le h.feed_bounds.2.1

theorem slowest_eq : slowest = 60 * 2 ^ 400 * 10 ^ 9 := by
  rw [slowest, value_vast]

theorem slowest_pos : 0 < slowest := by
  rw [slowest_eq]
  positivity

theorem slowest_mul_grain : slowest * grain ≤ 1 / 8 := by
  calc slowest * grain = 60 * 10 ^ 9 * (grain * 2 ^ 400) := by
        rw [slowest_eq]
        generalize (2 : ℝ) ^ 400 = scale
        ring
    _ = 60 * 10 ^ 9 * 2 ^ (-133 : Int) := by rw [grain_mul_two_pow]
    _ ≤ 1 / 8 := by norm_num

theorem pace_nonneg (h : w.InRange) : 0 ≤ pace w := by
  have := h.feed_pos
  unfold pace
  split <;> positivity

theorem pace_le (h : w.InRange) : pace w ≤ slowest := by
  have hpos := h.feed_pos
  have hlow : (0 : ℝ) < 1 / 2 ^ 400 := by positivity
  have hinv : ∀ {r : ℝ}, 1 / 2 ^ 400 ≤ r → 60 / r * 10 ^ 9 ≤ slowest := by
    intro r hr
    have := one_div_le_one_div_of_le hlow hr
    rw [one_div_one_div] at this
    rw [slowest_eq, div_eq_mul_one_div]
    gcongr
  have hfeed := h.feed_bounds.2.1
  unfold pace
  split
  · exact hinv (hfeed.trans (by linarith only [hpos]))
  · exact hinv hfeed
  · exact slowest_pos.le

theorem pace_withMotion_rapid (h : w.InRange) (htravels : w.motion.travels = true) :
    pace (w.withMotion .rapid) ≤ pace w := by
  have hpos := h.feed_pos
  unfold pace
  cases hw : w.motion with
  | rapid => exact le_of_eq rfl
  | linear =>
    change 60 / (value (feed w.modal) * 8) * 10 ^ 9 ≤ 60 / value (feed w.modal) * 10 ^ 9
    gcongr
    linarith only [hpos]
  | _ =>
    rw [hw] at htravels
    cases htravels

theorem pace_le_of_feed_le (hv : v.InRange) (hw : w.InRange) (hmotion : v.motion = w.motion)
    (hfeed : feed v.modal ≤ feed w.modal) : pace w ≤ pace v := by
  have hvalue := Number.value_le_of_le hfeed hv.feed_bounds.1 hw.feed_bounds.1
  have hpos := hv.feed_pos
  unfold pace
  rw [hmotion]
  split
  · gcongr
  · gcongr
  · rfl

theorem pause_of_travels (h : w.motion.travels = true) : pause w = 0 := by
  unfold pause
  cases hw : w.motion with
  | dwell =>
    rw [hw] at h
    cases h
  | _ => rfl

end Pace

/-- The same end and the same changes of tools in no more time. -/
structure Hurries (p q : Path) : Prop where
  endPoint : endPoint q = endPoint p
  lastTools : lastTools q = lastTools p
  changeTime : changeTime q = changeTime p
  exactTime : exactTime q ≤ exactTime p

theorem toolTime_congr {a b : Modal} (h : a.tool = b.tool) (tools : Option (UInt32 × UInt32)) :
    toolTime tools a = toolTime tools b := by
  unfold toolTime
  rw [h]

theorem Hurries.nil : Hurries [] [] := ⟨rfl, rfl, rfl, le_rfl⟩

theorem Hurries.concat {q : Path} (h : Hurries p q) (hpoint : v.point = w.point)
    (htool : v.modal.tool = w.modal.tool) (hnext : v.modal.nextTool = w.modal.nextTool)
    (hpause : pause v = pause w) (hpace : pace v ≤ pace w) : Hurries (p ++ [w]) (q ++ [v]) where
  endPoint := by rw [endPoint_concat, endPoint_concat, hpoint]
  lastTools := by rw [lastTools_concat, lastTools_concat, htool, hnext]
  changeTime := by
    rw [changeTime_concat, changeTime_concat, h.changeTime, h.lastTools, toolTime_congr htool]
  exactTime := by
    rw [exactTime_concat, exactTime_concat, h.endPoint, hpoint, hpause]
    have := mul_le_mul_of_nonneg_right hpace
      (dist_nonneg (x := position (Path.endPoint p)) (y := position w.point))
    linarith [h.exactTime]

theorem Hurries.rapid {q : Path} (h : Hurries p q) (hw : w.InRange)
    (htravels : w.motion.travels = true) : Hurries (p ++ [w]) (q ++ [w.withMotion .rapid]) :=
  h.concat rfl rfl rfl (pause_of_travels htravels).symm (pace_withMotion_rapid hw htravels)

/-- The first part of a move is made at a quicker pace. -/
theorem Hurries.split {q : Path} (h : Hurries p q) (htool : v.modal.tool = w.modal.tool)
    (hnext : v.modal.nextTool = w.modal.nextTool) (hpause : pause v = 0) (hpace : pace v ≤ pace w)
    (hway : dist (position (Path.endPoint p)) (position v.point) +
      dist (position v.point) (position w.point) =
        dist (position (Path.endPoint p)) (position w.point)) :
    Hurries (p ++ [w]) (q ++ [v] ++ [w]) where
  endPoint := by rw [endPoint_concat, endPoint_concat]
  lastTools := by rw [lastTools_concat, lastTools_concat]
  changeTime := by
    have hnone : toolTime (some (w.modal.tool, w.modal.nextTool)) w.modal = ⟨0⟩ := if_pos rfl
    rw [changeTime_concat, changeTime_concat, changeTime_concat, lastTools_concat, htool, hnext,
      hnone, h.changeTime, h.lastTools, toolTime_congr htool, Nat.add_zero]
  exactTime := by
    have := mul_le_mul_of_nonneg_right hpace
      (dist_nonneg (x := position (Path.endPoint p)) (y := position v.point))
    rw [exactTime_concat, exactTime_concat, exactTime_concat, endPoint_concat, h.endPoint, ← hway,
      hpause, Nat.cast_zero]
    linarith [h.exactTime]

section Lifting

theorem hurries_lift (hp : ∀ w ∈ p, w.InRange)
    (hrises : ∀ h ∈ histories p, rises (endPoint h.1) h.2 = true → h.2.motion.travels = true) :
    Hurries p (lift p) := by
  induction p using List.reverseRecOn with
  | nil => exact .nil
  | append_singleton p w ih =>
    have hlift := ih (fun v hv => hp v (by simp [hv])) fun h hh => hrises h (by simp [hh])
    rw [lift_concat]
    by_cases hw : rises (endPoint p) w = true
    · rw [if_pos hw]
      exact hlift.rapid (hp w (by simp)) (hrises (p, w) (by simp) hw)
    · rw [if_neg hw]
      exact hlift.concat rfl rfl rfl rfl le_rfl

end Lifting

section Drilling

theorem dist_straight {a b : Point} (hx : value a.x = value b.x) (hy : value a.y = value b.y) :
    dist (position a) (position b) = |value a.z - value b.z| := by
  rw [Geometry.dist_position, hx, hy, sub_self, sub_self, ← Real.sqrt_sq_eq_abs]
  congr 1
  ring

/-- A plunge is not longer for passing through a depth on its way. -/
theorem dist_through_depth {start : Point} {depth : Float} {k : ℕ} (hplunge : Plunge start w)
    (hstart : Within k start) (hw : Within k w.point) (hdepth : depth.isFinite = true)
    (hbelow : ¬ start.z ≤ depth) (habove : ¬ depth ≤ w.point.z) :
    dist (position start) (position (w.withZ depth).point) +
      dist (position (w.withZ depth).point) (position w.point) =
        dist (position start) (position w.point) := by
  obtain ⟨hx, hy⟩ := Geometry.Point.sameXY_iff.1 hplunge.straight
  have hx := Number.value_eq_of_beq hx hw.x.1 hstart.x.1
  have hy := Number.value_eq_of_beq hy hw.y.1 hstart.y.1
  have hupper := Number.value_lt_of_not_le hbelow hstart.z.1 hdepth
  have hlower := Number.value_lt_of_not_le habove hdepth hw.z.1
  have hfirst : dist (position start) (position (w.withZ depth).point) =
      |value start.z - value depth| := dist_straight hx.symm hy.symm
  have hsecond : dist (position (w.withZ depth).point) (position w.point) =
      |value depth - value w.point.z| := dist_straight rfl rfl
  rw [hfirst, hsecond, dist_straight hx.symm hy.symm, abs_of_pos (by linarith),
    abs_of_pos (by linarith), abs_of_pos (by linarith)]
  ring

theorem hurries_redrill (hp : ∀ w ∈ p, w.InRange) : Hurries p (redrill p) := by
  induction p using List.reverseRecOn with
  | nil => exact .nil
  | append_singleton p w ih =>
    have hbefore : ∀ v ∈ p, v.InRange := fun v hv => hp v (by simp [hv])
    have hw := hp w (by simp)
    have hdrill := ih hbefore
    rw [redrill_concat]
    rcases redrilled_cases p w with
      hout | ⟨depth, hplunge, hdepth, ⟨-, hout⟩ | ⟨⟨hstart, hend⟩, hout⟩⟩ <;> rw [hout]
    · exact hdrill.concat rfl rfl rfl rfl le_rfl
    · exact hdrill.rapid hw (by rw [hplunge.linear]; rfl)
    · obtain ⟨⟨u, hu, rfl⟩, -⟩ := deepest?_eq_some hdepth
      obtain ⟨b, hb, -⟩ := mem_plungesAt.1 hu
      have hufin := (hbefore u (mem_of_mem_histories hb).1).within.z.1
      have hsum := dist_through_depth hplunge (within_endPoint hbefore) hw.within hufin hstart hend
      have htravels : w.motion.travels = true := by
        rw [hplunge.linear]
        rfl
      have hpace := pace_withMotion_rapid hw htravels
      have hsplit := hdrill.split (v := (w.withZ u.point.z).withMotion .rapid) (w := w) rfl rfl
        rfl hpace hsum
      rwa [List.append_assoc] at hsplit

end Drilling

section Dropping

/-- A waypoint that takes the place of another one does not lower the feedrate. -/
def KeepsFeed (f : Path → Path) (p : Path) : Prop :=
  ∀ h ∈ histories p, ∀ kept v, f h.1 = kept ++ [v] → f (h.1 ++ [h.2]) = kept ++ [h.2] →
    feed v.modal ≤ feed h.2.modal

theorem KeepsFeed.before {f : Path → Path} (h : KeepsFeed f (p ++ [w])) : KeepsFeed f p :=
  fun x hx => h x (by simp [hx])

theorem dist_le_grain {last : Point} (hlast : Within 400 last) (hw : Within 400 w.point)
    (hstill : (w.point.distance last == 0) = true) :
    dist (position last) (position w.point) ≤ grain := by
  obtain ⟨hfin, -⟩ := Geometry.distance_bounded (by norm_num) hw hlast
  obtain ⟨-, hnear⟩ := Geometry.near_distance hfin
  have hlower := hnear.lower
  rw [Number.value_eq_of_beq hstill hfin (by decide), Number.value_zero, mul_zero, zero_add]
    at hlower
  rwa [dist_comm]

/-- What is saved pays for the way from the end of what is kept to the end of the path. -/
theorem exactTime_edited_le {f : Path → Path} (hf : Edits f) (hp : ∀ w ∈ p, w.InRange)
    (hfeed : KeepsFeed f p) :
    exactTime (f p) + slowest * dist (position (endPoint (f p))) (position (endPoint p)) ≤
      exactTime p + p.length * (slowest * grain) := by
  induction p using List.reverseRecOn with
  | nil => simp [hf.empty]
  | append_singleton p w ih =>
    have hbefore : ∀ v ∈ p, v.InRange := fun v hv => hp v (by simp [hv])
    have hw := hp w (by simp)
    have hih := ih hbefore hfeed.before
    have hnew := hfeed (p, w) (by simp)
    have hmem : ∀ v ∈ f p, v ∈ p := fun v => hf.mem
    have hgrain := mul_pos slowest_pos Number.grain_pos
    have hpace := pace_nonneg hw
    have hslow := pace_le hw
    have hedit := hf.step p w
    dsimp only at hnew
    rw [endPoint_concat, exactTime_concat, List.length_append, List.length_singleton]
    push_cast
    generalize f p = kept at *
    generalize f (p ++ [w]) = kept' at *
    cases hedit with
    | keep =>
      rw [endPoint_concat, exactTime_concat, dist_self, mul_zero]
      have hway := mul_le_mul_of_nonneg_left (dist_triangle (position (endPoint kept))
        (position (endPoint p)) (position w.point)) hpace
      have hgap := mul_le_mul_of_nonneg_right hslow
        (dist_nonneg (x := position (endPoint kept)) (y := position (endPoint p)))
      linarith
    | replace kept v travels same =>
      have hv := hbefore v (hmem v (by simp))
      have hfaster := pace_le_of_feed_le hv hw same (hnew kept v rfl rfl)
      rw [endPoint_concat, exactTime_concat, pause_of_travels (same ▸ travels)] at hih
      rw [endPoint_concat, exactTime_concat, dist_self, mul_zero, pause_of_travels travels]
      have hway := mul_le_mul_of_nonneg_left (dist_triangle4 (position (endPoint kept))
        (position v.point) (position (endPoint p)) (position w.point)) hpace
      have hleg := mul_le_mul_of_nonneg_right hfaster
        (dist_nonneg (x := position (endPoint kept)) (y := position v.point))
      have hgap := mul_le_mul_of_nonneg_right hslow
        (dist_nonneg (x := position v.point) (y := position (endPoint p)))
      linarith
    | drop kept travels still =>
      have hstep := dist_le_grain (within_endPoint hbefore) hw.within still
      have hway := mul_le_mul_of_nonneg_left (dist_triangle (position (endPoint kept))
        (position (endPoint p)) (position w.point)) slowest_pos.le
      have hgap := mul_le_mul_of_nonneg_left hstep slowest_pos.le
      have htime := mul_nonneg hpace
        (dist_nonneg (x := position (endPoint p)) (y := position w.point))
      have hpause : (0 : ℝ) ≤ pause w := Nat.cast_nonneg _
      linarith

theorem announcedChange_le : announcedChange.nanoseconds ≤ unannouncedChange.nanoseconds := by
  simp [announcedChange, unannouncedChange, Span.ofWholeSeconds]

theorem unannouncedChange_le : unannouncedChange.nanoseconds ≤ 2 * announcedChange.nanoseconds := by
  simp [announcedChange, unannouncedChange, Span.ofWholeSeconds]

theorem toolTime_le (tools : Option (UInt32 × UInt32)) (m : Modal) :
    (toolTime tools m).nanoseconds ≤ unannouncedChange.nanoseconds := by
  unfold toolTime
  split
  · exact le_rfl
  · split_ifs
    · exact Nat.zero_le _
    · exact announcedChange_le
    · exact le_rfl

theorem le_toolTime {tool next : UInt32} {m : Modal} (h : tool ≠ m.tool) :
    announcedChange.nanoseconds ≤ (toolTime (some (tool, next)) m).nanoseconds := by
  simp only [toolTime, if_neg h]
  split_ifs
  · exact le_rfl
  · exact announcedChange_le

/-- After `tools`, a waypoint with these settings announces no tool that was not announced before. It
may if it changes the tool itself, since it is charged for that. -/
def AnnouncesNothing : Option (UInt32 × UInt32) → Modal → Prop
  | none, _ => True
  | some (tool, next), m => m.tool = tool → m.nextTool = next ∨ m.nextTool = tool

instance : ∀ tools m, Decidable (AnnouncesNothing tools m)
  | none, _ => .isTrue trivial
  | some (tool, next), m =>
    inferInstanceAs (Decidable (m.tool = tool → m.nextTool = next ∨ m.nextTool = tool))

/-- A change of tools is not cheaper with a stop on the way that announces nothing. -/
theorem toolTime_le_through {tools : Option (UInt32 × UInt32)} {m : Modal}
    (h : AnnouncesNothing tools m) (n : Modal) : (toolTime tools n).nanoseconds ≤
      (toolTime tools m).nanoseconds + (toolTime (some (m.tool, m.nextTool)) n).nanoseconds := by
  match tools with
  | none => exact Nat.le_add_right _ _
  | some (tool, next) =>
    by_cases hsame : m.tool = n.tool
    · rw [toolTime_congr hsame.symm]
      exact Nat.le_add_right _ _
    · by_cases hstays : m.tool = tool
      · refine le_trans ?_ (Nat.le_add_left _ _)
        rcases h hstays with hnext | hnext <;> rw [hnext]
        · rw [hstays]
        · have hlost : toolTime (some (m.tool, tool)) n = unannouncedChange := by
            simp only [toolTime, if_neg hsame, if_neg (hstays ▸ hsame)]
          rw [hlost]
          exact toolTime_le _ n
      · have hdirect := toolTime_le (some (tool, next)) n
        have hfirst := @le_toolTime tool next m (Ne.symm hstays)
        have hsecond := @le_toolTime m.tool m.nextTool n hsame
        have htwice := unannouncedChange_le
        omega

/-- `q` is `p` without some waypoints, none of which announces a tool that the waypoint right before
it in `p` does not announce. -/
inductive KeepsAnnouncements : Path → Path → Prop
  | nil : KeepsAnnouncements [] []
  | keep {p q : Path} (w : Waypoint) : KeepsAnnouncements p q →
      KeepsAnnouncements (p ++ [w]) (q ++ [w])
  | drop {p q : Path} (w : Waypoint) : KeepsAnnouncements p q →
      AnnouncesNothing (lastTools p) w.modal → KeepsAnnouncements (p ++ [w]) q

def MovesAnnounceNothing (p : Path) : Prop :=
  ∀ h ∈ histories p, h.2.motion.travels = true → AnnouncesNothing (lastTools h.1) h.2.modal

theorem MovesAnnounceNothing.before (h : MovesAnnounceNothing (p ++ [w])) :
    MovesAnnounceNothing p :=
  fun x hx => h x (by simp [hx])

namespace KeepsAnnouncements

variable {q : Path}

/-- Whatever comes next, the tools up to it take no more time. -/
theorem charges_le (h : KeepsAnnouncements p q) (m : Modal) :
    changeTime q + (toolTime (lastTools q) m).nanoseconds ≤
      changeTime p + (toolTime (lastTools p) m).nanoseconds := by
  induction h generalizing m with
  | nil => exact le_rfl
  | keep w _ ih =>
    have hw := ih w.modal
    simp only [changeTime_concat, lastTools_concat]
    omega
  | drop w _ hquiet ih =>
    have hm := ih m
    have hthrough := toolTime_le_through hquiet m
    simp only [changeTime_concat, lastTools_concat]
    omega

theorem changeTime_le (h : KeepsAnnouncements p q) : changeTime q ≤ changeTime p := by
  induction h with
  | nil => exact le_rfl
  | keep w h =>
    rw [changeTime_concat, changeTime_concat]
    exact h.charges_le w.modal
  | drop w _ _ ih =>
    rw [changeTime_concat]
    omega

theorem drop_last {kept : Path} (h : KeepsAnnouncements p (kept ++ [v]))
    (hp : MovesAnnounceNothing p) (hv : v.motion.travels = true) : KeepsAnnouncements p kept := by
  generalize hq : kept ++ [v] = q at h
  induction h with
  | nil => simp at hq
  | @keep before _ w h =>
    obtain ⟨rfl, hw⟩ := List.append_inj' hq rfl
    obtain rfl := List.singleton_inj.1 hw
    exact .drop v h (hp (before, v) (by simp) hv)
  | drop w _ hquiet ih => exact .drop w (ih hp.before hq) hquiet

end KeepsAnnouncements

theorem keepsAnnouncements_of_edits {f : Path → Path} (hf : Edits f)
    (hp : MovesAnnounceNothing p) : KeepsAnnouncements p (f p) := by
  induction p using List.reverseRecOn with
  | nil =>
    rw [hf.empty]
    exact .nil
  | append_singleton p w ih =>
    have hkept := ih hp.before
    have hw := hp (p, w) (by simp)
    have hedit := hf.step p w
    generalize f p = kept at hkept hedit
    generalize f (p ++ [w]) = kept' at hedit ⊢
    cases hedit with
    | keep => exact .keep w hkept
    | replace kept v travels same => exact .keep w (hkept.drop_last hp.before (same ▸ travels))
    | drop kept travels => exact .drop w hkept (hw travels)

theorem noSlower_of_edits {f : Path → Path} (hf : Edits f) (hp : ∀ w ∈ p, w.InRange)
    (hfeed : KeepsFeed f p) (htools : KeepsAnnouncements p (f p)) : NoSlower p (f p) := by
  refine noSlower_of_exactTime_le hp (fun w hw => hp w (hf.mem hw)) htools.changeTime_le ?_
  have hway := mul_nonneg slowest_pos.le
    (dist_nonneg (x := position (endPoint (f p))) (y := position (endPoint p)))
  have hgrain := mul_le_mul_of_nonneg_left slowest_mul_grain (Nat.cast_nonneg (α := ℝ) p.length)
  linarith [exactTime_edited_le hf hp hfeed]

end Dropping

theorem noSlower_of_hurries {q : Path} (h : Hurries p q) (hp : ∀ w ∈ p, w.InRange)
    (hq : ∀ w ∈ q, w.InRange) : NoSlower p q := by
  have hlength : (0 : ℝ) ≤ p.length := Nat.cast_nonneg _
  exact noSlower_of_exactTime_le hp hq h.changeTime.le (by linarith [h.exactTime])

theorem inRange_redrill (hp : ∀ w ∈ p, w.InRange) : ∀ v ∈ redrill p, v.InRange := by
  intro v hv
  obtain ⟨before, w, hh, hmem⟩ := mem_redrill.1 hv
  obtain ⟨hw, hbefore⟩ := mem_of_mem_histories hh
  obtain ⟨hfeed, hx, hy, hz⟩ := mem_redrilled hmem
  have hsame : feed v.modal = feed w.modal := by rw [feed, feed, hfeed]
  have hz : -vast ≤ v.point.z ∧ v.point.z ≤ vast := by
    rcases hz with hz | ⟨u, hu, hz⟩
    · rw [hz]
      exact (hp w hw).z
    · obtain ⟨b, hb, -⟩ := mem_plungesAt.1 hu
      rw [← hz]
      exact (hp u (hbefore u (mem_of_mem_histories hb).1)).z
  exact ⟨hx ▸ (hp w hw).x, hy ▸ (hp w hw).y, hz, hsame ▸ (hp w hw).feed⟩

theorem inRange_lift (hp : ∀ w ∈ p, w.InRange) : ∀ v ∈ lift p, v.InRange := by
  refine forall_mem_walk (fun last w hw v hv => ?_) hp _
  obtain rfl := List.mem_singleton.1 hv
  split
  · exact ⟨hw.x, hw.y, hw.z, hw.feed⟩
  · exact hw

/-- Drilling never makes a path slower. The other passes may, but not if each waypoint that is made
rapid was a move, if the feedrate is not lowered where waypoints are merged, and if no waypoint that
is dropped or merged announces a tool. -/
theorem passes_no_slower (hp : ∀ w ∈ p, w.InRange) :
    NoSlower p (drill p) ∧
    ((∀ h ∈ histories p, rises (endPoint h.1) h.2 = true → h.2.motion.travels = true) →
      NoSlower p (lift p)) ∧
    (KeepsFeed straighten p → KeepsAnnouncements p (straighten p) → NoSlower p (straighten p)) ∧
    ∀ tolerance, KeepsFeed (simplify tolerance) p → KeepsAnnouncements p (simplify tolerance p) →
      NoSlower p (simplify tolerance p) := by
  refine ⟨?_, fun hrises => ?_, noSlower_of_edits edits_straighten hp,
    fun tolerance => noSlower_of_edits (edits_simplify tolerance) hp⟩
  · rw [drill_eq_redrill]
    exact noSlower_of_hurries (hurries_redrill hp) hp (inRange_redrill hp)
  · exact noSlower_of_hurries (hurries_lift hp hrises) hp (inRange_lift hp)

theorem keepsFeed_of_pairwise {f : Path → Path} (hf : Edits f)
    (h : p.Pairwise fun v w => feed v.modal ≤ feed w.modal) : KeepsFeed f p := by
  rintro ⟨before, w⟩ hh kept v hkept -
  obtain ⟨after, rfl⟩ := mem_histories.1 hh
  have hv : v ∈ before := hf.mem (by rw [hkept]; simp)
  exact (List.pairwise_append.1 h).2.2 v hv w (by simp)

section Examples

def atFeed (m : Motion) (feed x z : Float) : Waypoint :=
  ⟨{ Modal.initial with motion := m, feedrate := feed }, ⟨x, 0, z⟩⟩

/-- A plunge and a lift, then a deeper plunge and a cut that ends faster than it starts. -/
def passage : Path :=
  [atFeed .unset 100 0 0, atFeed .rapid 100 0 5, atFeed .linear 100 0 (-1), atFeed .linear 100 0 5,
    atFeed .linear 100 0 (-2), atFeed .linear 100 1 (-2), atFeed .linear 200 2 (-2),
    atFeed .linear 200 2 (-2)]

theorem passage_no_slower : (∀ w ∈ passage, w.InRange) ∧ NoSlower passage (drill passage) ∧
    NoSlower passage (lift passage) ∧ NoSlower passage (straighten passage) ∧
    NoSlower passage (simplify 0.5 passage) := by
  have hrange : ∀ w ∈ passage, w.InRange := by
    unfold passage
    decide +kernel
  have hfeed : passage.Pairwise fun v w => feed v.modal ≤ feed w.modal := by decide +kernel
  have htools : MovesAnnounceNothing passage := by
    unfold MovesAnnounceNothing
    decide +kernel
  obtain ⟨hdrill, hlift, hstraighten, hsimplify⟩ := passes_no_slower hrange
  exact ⟨hrange, hdrill, hlift (by decide +kernel),
    hstraighten (keepsFeed_of_pairwise edits_straighten hfeed)
      (keepsAnnouncements_of_edits edits_straighten htools),
    hsimplify 0.5 (keepsFeed_of_pairwise (edits_simplify 0.5) hfeed)
      (keepsAnnouncements_of_edits (edits_simplify 0.5) htools)⟩

/-- A straight way whose last millimetre is slow. -/
def creeping : Path :=
  [atFeed .unset 1000 0 0, atFeed .linear 1000 1 0, atFeed .linear 1000 10 0, atFeed .linear 1 11 0]

/-- The second tool is announced by a move that goes nowhere. -/
def announced : Path :=
  [atFeed .unset 1000 0 0, ⟨{ (atFeed .linear 1000 0 0).modal with nextTool := 2 }, .origin⟩,
    ⟨{ (atFeed .linear 1000 1 0).modal with tool := 2 }, ⟨1, 0, 0⟩⟩]

/-- Starts above the origin, but not by a move. -/
def raised : Path := [atFeed .unset 100 0 10]

theorem creeping_counterexample :
    (∀ w ∈ creeping ++ announced ++ raised, w.InRange ∧ 0 < w.modal.feedrate) ∧
    ¬ NoSlower creeping (straighten creeping) ∧ ¬ NoSlower creeping (simplify 0.001 creeping) ∧
    ¬ NoSlower announced (straighten announced) ∧ ¬ NoSlower raised (lift raised) := by
  have hcreeping : runningTime creeping = ⟨70600000000⟩ := by decide +kernel
  have hannounced : runningTime announced = ⟨15060000000⟩ := by decide +kernel
  have hraised : runningTime raised = ⟨10000000000⟩ := by decide +kernel
  have hmerged : runningTime (straighten creeping) = ⟨670000000000⟩ ∧
      (straighten creeping).length = 2 := by decide +kernel
  have hcut : runningTime (simplify 0.001 creeping) = ⟨610060000000⟩ ∧
      (simplify 0.001 creeping).length = 3 := by decide +kernel
  have hlost : runningTime (straighten announced) = ⟨20060000000⟩ ∧
      (straighten announced).length = 2 := by decide +kernel
  have hrisen : runningTime (lift raised) = ⟨10750000000⟩ ∧ (lift raised).length = 1 := by
    decide +kernel
  refine ⟨by unfold creeping announced raised; decide +kernel, ?_, ?_, ?_, ?_⟩
  · rw [NoSlower, hcreeping, hmerged.1, hmerged.2]
    norm_num [creeping, roundoff]
  · rw [NoSlower, hcreeping, hcut.1, hcut.2]
    norm_num [creeping, roundoff]
  · rw [NoSlower, hannounced, hlost.1, hlost.2]
    norm_num [announced, roundoff]
  · rw [NoSlower, hraised, hrisen.1, hrisen.2]
    norm_num [raised, roundoff]

end Examples

end Toolpath.Path
