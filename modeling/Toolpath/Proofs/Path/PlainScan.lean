import Toolpath.Proofs.Path.Survey

/-!
# The scan with plain lists

A survey can be told with a flag for whether the tool is in a group and with lists of waypoints,
where nothing keeps a group from being empty. On every path it goes as the scan whose groups start
with their entry, so no group is empty after all.
-/

namespace Toolpath.Path

open Toolpath.Geometry (Point)

structure PlainSurvey where
  groups : List (List Waypoint)
  safetyHeight : Float
  feedrate : Float

structure PlainScan where
  last : Point
  groups : List (List Waypoint)
  current : List Waypoint
  inGroup : Bool
  height : Float
  feedrate : Float

namespace PlainScan

def initial : PlainScan where
  last := .origin
  groups := []
  current := []
  inGroup := false
  height := 0
  feedrate := 0

def advance (s : PlainScan) (w : Waypoint) : PlainScan :=
  { s with last := w.point, height := Number.larger s.height w.point.z }

def noteFeedrate (s : PlainScan) (w : Waypoint) : Except Refusal PlainScan :=
  let feed := w.modal.feedrate
  if w.motion = .linear ∧ 0 < feed then
    if s.feedrate == 0 then .ok { s with feedrate := feed }
    else if feed == s.feedrate then .ok s
    else .error (.differentFeedrates s.feedrate feed)
  else .ok s

/-- In a group every waypoint is kept. -/
def push (s : PlainScan) (index : Nat) (w : Waypoint) : Except Refusal PlainScan :=
  if s.inGroup then
    if 0 < w.point.z then .error (.aboveStock index)
    else .ok ({ s with current := s.current ++ [w] }.advance w)
  else .ok (s.advance w)

def enter (s : PlainScan) (index : Nat) (w : Waypoint) : Except Refusal PlainScan := do
  let s ← { s with inGroup := true }.noteFeedrate w
  s.push index w

def leave (s : PlainScan) (w : Waypoint) : PlainScan :=
  let groups := if s.inGroup then s.groups ++ [s.current] else s.groups
  { s with groups, current := [], inGroup := false }.advance w

def step (s : PlainScan) (index : Nat) (w : Waypoint) : Except Refusal PlainScan :=
  let stationary := w.point.sameXY s.last
  let z := w.point.z
  if !(z == s.last.z) ∧ !stationary then .error (.complexZMotion index)
  else if stationary ∧ 0 ≤ s.last.z ∧ z < 0 then s.enter index w
  else if stationary ∧ s.last.z < 0 ∧ 0 ≤ z then .ok (s.leave w)
  else if !stationary ∧ z < 0 ∧ w.motion = .rapid then .error (.rapidInStock index)
  else s.push index w

def finish (s : PlainScan) : Except Refusal PlainSurvey :=
  if s.height == 0 then .error .noSafetyHeight
  else if s.feedrate == 0 then .error .noDrillFeedrate
  else if !s.current.isEmpty then .error .unfinishedGroup
  else .ok { groups := s.groups, safetyHeight := s.height, feedrate := s.feedrate }

end PlainScan

def plainSurvey (p : Path) : Except Refusal PlainSurvey := do
  let s ← p.zipIdx.foldlM (fun s (w, index) => s.step index w) PlainScan.initial
  s.finish

def Survey.plain (s : Survey) : PlainSurvey where
  groups := s.groups.map Group.toList
  safetyHeight := s.safetyHeight
  feedrate := s.feedrate

theorem Survey.nil_not_mem_plain_groups (s : Survey) : [] ∉ s.plain.groups := by
  simp [plain, Group.toList]

namespace Scan

/-- The same scan with its groups as lists. The tool is in a group while one is open. -/
def plain (s : Scan) : PlainScan where
  last := s.last
  groups := s.done
  current := s.cut
  inGroup := s.current.isSome
  height := s.height
  feedrate := s.feedrate

theorem plain_leave (s : Scan) (w : Waypoint) : (s.leave w).plain = s.plain.leave w := by
  cases hcurrent : s.current with
  | none => simp [leave, PlainScan.leave, plain, advance, PlainScan.advance, done, cut, hcurrent]
  | some g =>
    simp [leave, PlainScan.leave, plain, advance, PlainScan.advance, done, cut, hcurrent,
      Group.toList]

theorem push_plain (s : Scan) (index : Nat) (w : Waypoint) :
    s.plain.push index w = (s.extend index w).map plain := by
  rw [PlainScan.push, extend]
  cases hcurrent : s.current with
  | none => simp [plain, hcurrent, Except.map, advance, PlainScan.advance, done, cut]
  | some g =>
    by_cases hhigh : 0 < w.point.z
    · simp [plain, hcurrent, hhigh, Except.map]
    · simp [plain, hcurrent, hhigh, Except.map, advance, PlainScan.advance, done, cut]

theorem noteFeedrate_plain (s : Scan) (inGroup : Bool) (w : Waypoint) :
    { s.plain with inGroup }.noteFeedrate w =
      (s.noteFeedrate w).map fun t => { t.plain with inGroup } := by
  have hfeedrate : s.plain.feedrate = s.feedrate := rfl
  simp only [PlainScan.noteFeedrate, noteFeedrate, hfeedrate]
  split_ifs <;> rfl

theorem enter_plain (s : Scan) (index : Nat) {w : Waypoint} (h : w.point.z < 0) :
    s.plain.enter index w = (s.enter index w).map plain := by
  rw [PlainScan.enter, enter, noteFeedrate_plain]
  cases hnote : s.noteFeedrate w with
  | error r => rfl
  | ok t =>
    change { t.plain with inGroup := true }.push index w = _
    simp only [bind, Except.bind]
    cases hcurrent : t.current with
    | none =>
      have hlow : ¬ 0 < w.point.z := by
        intro hhigh
        rw [Number.lt_iff] at h hhigh
        omega
      rw [PlainScan.push, if_pos rfl, if_neg hlow]
      simp [plain, hcurrent, pure, Except.pure, Except.map, advance, PlainScan.advance, done, cut]
    | some g =>
      have hopen : { t.plain with inGroup := true } = t.plain := by simp [plain, hcurrent]
      rw [hopen]
      exact push_plain t index w

theorem step_plain (s : Scan) (index : Nat) (w : Waypoint) :
    s.plain.step index w = (s.step index w).map plain := by
  have hlast : s.plain.last = s.last := rfl
  simp only [PlainScan.step, step, hlast]
  split_ifs with hcomplex henter hleave hrapid
  · rfl
  · exact enter_plain s index henter.2.2
  · exact congrArg Except.ok (plain_leave s w).symm
  · rfl
  · exact push_plain s index w

theorem foldlM_plain (items : List (Waypoint × Nat)) (s : Scan) :
    items.foldlM (fun s (w, index) => PlainScan.step s index w) s.plain =
      (items.foldlM (fun s (w, index) => step s index w) s).map plain := by
  induction items generalizing s with
  | nil => rfl
  | cons item items ih =>
    obtain ⟨w, index⟩ := item
    simp only [List.foldlM_cons]
    rw [step_plain]
    cases s.step index w with
    | error r => rfl
    | ok t => exact ih t

theorem finish_plain (s : Scan) : s.plain.finish = s.finish.map Survey.plain := by
  have hheight : s.plain.height = s.height := rfl
  have hfeedrate : s.plain.feedrate = s.feedrate := rfl
  have hopen : (!s.plain.current.isEmpty) = s.current.isSome := by
    cases hcurrent : s.current with
    | none => simp [plain, cut, hcurrent]
    | some g => simp [plain, cut, hcurrent]
  simp only [PlainScan.finish, finish, hheight, hfeedrate, hopen]
  split_ifs <;> rfl

end Scan

/-- Told with plain lists, a survey finds and refuses the same. -/
theorem plainSurvey_eq (p : Path) : plainSurvey p = (survey p).map Survey.plain := by
  have hinitial : PlainScan.initial = Scan.initial.plain := rfl
  rw [plainSurvey, survey, hinitial, Scan.foldlM_plain]
  cases p.zipIdx.foldlM (fun s (w, index) => Scan.step s index w) Scan.initial with
  | error r => rfl
  | ok s => exact s.finish_plain

end Toolpath.Path
