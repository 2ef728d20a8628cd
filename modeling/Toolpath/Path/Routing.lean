import Toolpath.Path.Refusal
import Toolpath.Path.Walk
import Toolpath.Path.Waypoint

/-!
# Routing

The stretches of a path below Z0 are its groups. Routing takes the groups apart and visits them
nearest first from the origin. Short hops between groups stay at depth; all other travel goes
through the safety height. A path that is not a plain sequence of plunges, level moves and lifts is
refused.
-/

namespace Toolpath.Path

open Toolpath.Geometry (Point)

/-- A stretch below Z0. -/
structure Group where
  entry : Waypoint
  rest : List Waypoint

def Group.toList (g : Group) : List Waypoint := g.entry :: g.rest

/-- What is known of a path. The highest Z is the safety height. -/
structure Survey where
  groups : List Group
  safetyHeight : Float
  feedrate : Float

/-- A survey under way. The closed groups and the rest of the open one are held last one first. The
feedrate is zero until a plunge shows it. -/
structure Scan where
  last : Point
  closed : List Group
  current : Option Group
  height : Float
  feedrate : Float

namespace Scan

def initial : Scan where
  last := .origin
  closed := []
  current := none
  height := 0
  feedrate := 0

def advance (s : Scan) (w : Waypoint) : Scan :=
  { s with last := w.point, height := Number.larger s.height w.point.z }

/-- All linear plunges with a feedrate must share it. -/
def noteFeedrate (s : Scan) (w : Waypoint) : Except Refusal Scan :=
  let feed := w.modal.feedrate
  if w.motion = .linear ∧ 0 < feed then
    if s.feedrate == 0 then .ok { s with feedrate := feed }
    else if feed == s.feedrate then .ok s
    else .error (.differentFeedrates s.feedrate feed)
  else .ok s

def extend (s : Scan) (index : Nat) (w : Waypoint) : Except Refusal Scan :=
  match s.current with
  | none => .ok (s.advance w)
  | some g =>
    if 0 < w.point.z then .error (.aboveStock index)
    else .ok ({ s with current := some { g with rest := w :: g.rest } }.advance w)

/-- A plunge opens a group, and belongs to the group if one is open. -/
def enter (s : Scan) (index : Nat) (w : Waypoint) : Except Refusal Scan := do
  let s ← s.noteFeedrate w
  match s.current with
  | none => return { s with current := some ⟨w, []⟩ }.advance w
  | some _ => s.extend index w

/-- A lift closes the open group and belongs to none. -/
def leave (s : Scan) (w : Waypoint) : Scan :=
  let closed := match s.current with
    | some g => { g with rest := g.rest.reverse } :: s.closed
    | none => s.closed
  { s with closed, current := none }.advance w

def step (s : Scan) (index : Nat) (w : Waypoint) : Except Refusal Scan :=
  let stationary := w.point.sameXY s.last
  let z := w.point.z
  if !(z == s.last.z) ∧ !stationary then .error (.complexZMotion index)
  else if stationary ∧ 0 ≤ s.last.z ∧ z < 0 then s.enter index w
  else if stationary ∧ s.last.z < 0 ∧ 0 ≤ z then .ok (s.leave w)
  else if !stationary ∧ z < 0 ∧ w.motion = .rapid then .error (.rapidInStock index)
  else s.extend index w

def finish (s : Scan) : Except Refusal Survey :=
  if s.height == 0 then .error .noSafetyHeight
  else if s.feedrate == 0 then .error .noDrillFeedrate
  else if s.current.isSome then .error .unfinishedGroup
  else .ok { groups := s.closed.reverse, safetyHeight := s.height, feedrate := s.feedrate }

end Scan

def survey (p : Path) : Except Refusal Survey := do
  let s ← p.zipIdx.foldlM (fun s (w, index) => s.step index w) Scan.initial
  s.finish

/-- The first of the closest candidates; at equal distance a higher start wins. The distance of the
best candidate so far is carried along, and the result is its index. -/
def closestFrom (here : Point) (best : Waypoint) (distance : Float) (found next : Nat) :
    List Group → Nat
  | [] => found
  | g :: gs =>
    let d := g.entry.point.lateralDistance here
    if d < distance ∨ (d == distance ∧ best.point.z < g.entry.point.z) then
      closestFrom here g.entry d next (next + 1) gs
    else closestFrom here best distance found (next + 1) gs

def closest (here : Point) (first : Group) (others : List Group) : Nat :=
  closestFrom here first.entry (first.entry.point.lateralDistance here) 0 1 others

theorem closestFrom_lt (here : Point) (gs : List Group) (best : Waypoint) (distance : Float)
    (found next : Nat) (h : found < next) :
    closestFrom here best distance found next gs < next + gs.length := by
  induction gs generalizing best distance found next with
  | nil => simpa [closestFrom] using h
  | cons g gs ih =>
    simp only [closestFrom, List.length_cons]
    split
    · have := ih g.entry (g.entry.point.lateralDistance here) next (next + 1) (by omega)
      omega
    · have := ih best distance found (next + 1) (by omega)
      omega

theorem closest_lt (here : Point) (first : Group) (others : List Group) :
    closest here first others < (first :: others).length := by
  have := closestFrom_lt here others first.entry (first.entry.point.lateralDistance here) 0 1
    (by omega)
  simp only [closest, List.length_cons]
  omega

/-- Visits the closest group from `here`, then the closest from that group's entry, and so on. -/
def nearestFirst (here : Point) : List Group → List Group
  | [] => []
  | first :: others =>
    let index := closest here first others
    let g := (first :: others).get ⟨index, closest_lt here first others⟩
    g :: nearestFirst g.entry.point ((first :: others).eraseIdx index)
termination_by groups => groups.length
decreasing_by
  rw [List.length_eraseIdx_of_lt (closest_lt here first others)]
  simp

structure Travel where
  safetyHeight : Float
  feedrate : Float
  tolerance : Float

/-- The way to a group and through it. A hop goes sideways at the present depth, a climb to the
safety height and across. The entry is where the tool is at the start of the group. -/
structure Leg where
  group : Group
  hop : Option Waypoint
  climb : List Waypoint
  entry : Waypoint

namespace Leg

def cut (l : Leg) : List Waypoint := l.entry :: l.group.rest

def toList (l : Leg) : List Waypoint := l.hop.toList ++ l.climb ++ l.cut

def last (l : Leg) : Waypoint := l.group.rest.getLastD l.entry

end Leg

/-- From the last waypoint to a group. A hop in place is left out. -/
def Travel.leg (t : Travel) (last : Waypoint) (g : Group) : Leg :=
  let entry := g.entry
  if last.point.lateralDistance entry.point < t.tolerance then
    { group := g
      hop := if last.point.sameXY entry.point then none
        else some ((last.withXY entry.point.x entry.point.y).withMotion .linear)
      climb := []
      entry }
  else
    let lifted := (last.withZ t.safetyHeight).withMotion .rapid
    let above := lifted.withXY entry.point.x entry.point.y
    let plunged := (above.withZ entry.point.z).withMotion .linear
    { group := g
      hop := none
      climb := [lifted, above]
      entry := { plunged with modal := { plunged.modal with feedrate := t.feedrate } } }

def Travel.visit (t : Travel) (last : Waypoint) (g : Group) : Waypoint × List Leg :=
  let l := t.leg last g
  (l.last, [l])

def Travel.legs (t : Travel) (start : Waypoint) (groups : List Group) : List Leg :=
  walk t.visit start groups

structure Plan where
  start : Waypoint
  legs : List Leg
  safetyHeight : Float

namespace Plan

def body (p : Plan) : Path := p.start :: p.legs.flatMap Leg.toList

/-- A path does not end below the safety height. -/
def lift (p : Plan) : List Waypoint :=
  let last := p.body.getLastD p.start
  if last.point.z < p.safetyHeight then [(last.withZ p.safetyHeight).withMotion .rapid] else []

def path (p : Plan) : Path := p.body ++ p.lift

end Plan

/-- The tolerance is the shortest hop in the XY plane that needs a lift. -/
def plan (tolerance : Float) (p : Path) : Except Refusal Plan :=
  match p with
  | [] => .error .noSafetyHeight
  | start :: _ => do
    let s ← survey p
    let t : Travel := { safetyHeight := s.safetyHeight, feedrate := s.feedrate, tolerance }
    return { start, legs := t.legs start (nearestFirst .origin s.groups)
             safetyHeight := s.safetyHeight }

def route (tolerance : Float) (p : Path) : Except Refusal Path := (plan tolerance p).map Plan.path

end Toolpath.Path
