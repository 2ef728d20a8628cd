import Mathlib.Data.List.SplitBy
import Toolpath.Proofs.Path.Edits

/-!
# What straightening keeps

Each move has a way from the waypoint before it. Without the moves that go nowhere, a path falls
into groups of neighbours that go on in one direction, and straightening keeps the last waypoint of
each group. Waypoints that are no moves are groups of their own.
-/

namespace Toolpath.Path

open Toolpath.Geometry (Point)

section Runs

variable {α : Type} {r : α → α → Bool} {l : List α} {a b : α}

theorem splitBy_concat_of_break (h : ∀ b ∈ l.getLast?, r b a = false) :
    (l ++ [a]).splitBy r = l.splitBy r ++ [[a]] :=
  List.splitBy_append_cons [] h

theorem splitBy_concat_of_joined (hb : b ∈ l.getLast?) (h : r b a = true) :
    ∃ runs run, run ≠ [] ∧ l.splitBy r = runs ++ [run] ∧
      (l ++ [a]).splitBy r = runs ++ [run ++ [a]] := by
  have hl : l ≠ [] := List.ne_nil_of_mem (List.mem_of_mem_getLast? hb)
  obtain ⟨runs, run, hruns⟩ :=
    (List.eq_nil_or_concat (l.splitBy r)).resolve_left (List.splitBy_ne_nil.2 hl)
  rw [List.concat_eq_append] at hruns
  obtain ⟨hflat, hnil, hchain, hbreak⟩ := List.splitBy_eq_iff.1 hruns
  have hrun : run ≠ [] := by
    rintro rfl
    exact hnil (by simp)
  have hlast : run.getLast? = some b := by
    rw [hflat, List.flatten_append, List.flatten_singleton,
      List.getLast?_append_of_ne_nil _ hrun] at hb
    exact hb
  refine ⟨runs, run, hrun, hruns, List.splitBy_eq_iff.2 ⟨by simp [hflat], ?_, ?_, ?_⟩⟩
  · simpa using fun h => hnil (List.mem_append_left _ h)
  · intro group hgroup
    rcases List.mem_append.1 hgroup with hgroup | hgroup
    · exact hchain group (List.mem_append_left _ hgroup)
    · obtain rfl := List.mem_singleton.1 hgroup
      refine (hchain run (by simp)).append (.singleton a) ?_
      simpa [hlast] using h
  · obtain ⟨hruns', -, hend⟩ := List.isChain_append.1 hbreak
    refine List.isChain_append.2 ⟨hruns', .singleton _, ?_⟩
    intro group hgroup _ hnext
    obtain rfl := Option.some.inj hnext
    obtain ⟨hne, hne', hfalse⟩ := hend group hgroup run rfl
    exact ⟨hne, by simp, by rwa [List.head_append_of_ne_nil]⟩

end Runs

theorem Heading.same_iff {g h : Heading} : g.same h = true ↔ g.motion = h.motion ∧
    (g.direction.x == h.direction.x) = true ∧ (g.direction.y == h.direction.y) = true ∧
      (g.direction.z == h.direction.z) = true := by
  simp [Heading.same, and_assoc]

theorem Heading.same_symm {g h : Heading} (hsame : g.same h = true) : h.same g = true := by
  obtain ⟨hm, hx, hy, hz⟩ := same_iff.1 hsame
  exact same_iff.2 ⟨hm.symm, Number.beq_symm hx, Number.beq_symm hy, Number.beq_symm hz⟩

theorem Heading.same_trans {g h k : Heading} (hgh : g.same h = true) (hhk : h.same k = true) :
    g.same k = true := by
  obtain ⟨hm, hx, hy, hz⟩ := same_iff.1 hgh
  obtain ⟨hm', hx', hy', hz'⟩ := same_iff.1 hhk
  exact same_iff.2 ⟨hm.trans hm', Number.beq_trans hx hx', Number.beq_trans hy hy',
    Number.beq_trans hz hz'⟩

/-- A waypoint and the way to it from the waypoint before. -/
structure Stride where
  waypoint : Waypoint
  delta : Point

namespace Stride

def moves (s : Stride) : Bool := s.waypoint.motion.travels

def heading (s : Stride) : Heading where
  motion := s.waypoint.motion
  direction := ⟨s.delta.x / s.delta.norm, s.delta.y / s.delta.norm, s.delta.z / s.delta.norm⟩

def idle (s : Stride) : Bool := s.moves && s.delta.norm == 0

def inLine (s t : Stride) : Bool := s.moves && s.heading.same t.heading

theorem moves_of_inLine {s t : Stride} (h : s.inLine t = true) : t.moves = true := by
  obtain ⟨hmoves, hsame⟩ := Bool.and_eq_true_iff.1 h
  have hmotion : s.waypoint.motion = t.waypoint.motion := (Heading.same_iff.1 hsame).1
  rwa [moves, ← hmotion]

end Stride

/-- The first stride sets out from the origin. -/
def strides (p : Path) : List Stride :=
  (histories p).map fun (before, w) => ⟨w, w.point.sub (endPoint before)⟩

/-- The strides that go somewhere or are no moves. -/
def properStrides (p : Path) : List Stride := (strides p).filter (!·.idle)

/-- Neighbours are in one run if they are in line. -/
def straightRuns (p : Path) : List (List Stride) := (properStrides p).splitBy Stride.inLine

def runEnds (runs : List (List Stride)) : Path :=
  (runs.filterMap List.getLast?).map Stride.waypoint

theorem properStrides_concat (p : Path) (w : Waypoint) :
    properStrides (p ++ [w]) = properStrides p ++
      if Stride.idle ⟨w, w.point.sub (endPoint p)⟩ then [] else [⟨w, w.point.sub (endPoint p)⟩] := by
  simp only [properStrides, strides, histories_concat, List.map_append, List.map_singleton,
    List.filter_append, List.filter_singleton]
  cases Stride.idle ⟨w, w.point.sub (endPoint p)⟩ <;> rfl

theorem runEnds_concat (runs : List (List Stride)) (run : List Stride) (m : Stride) :
    runEnds (runs ++ [run ++ [m]]) = runEnds runs ++ [m.waypoint] := by
  simp [runEnds]

section Ends

variable {ms : List Stride} {m m' : Stride}

theorem runEnds_of_break (h : ∀ m' ∈ ms.getLast?, m'.inLine m = false) :
    runEnds ((ms ++ [m]).splitBy Stride.inLine) =
      runEnds (ms.splitBy Stride.inLine) ++ [m.waypoint] := by
  rw [splitBy_concat_of_break h]
  exact runEnds_concat _ [] m

/-- In a run that goes on, a new waypoint takes the place of the last one. -/
theorem runEnds_of_inLine (hm' : m' ∈ ms.getLast?) (h : m'.inLine m = true) :
    runEnds ((ms ++ [m]).splitBy Stride.inLine) =
      (runEnds (ms.splitBy Stride.inLine)).dropLast ++ [m.waypoint] := by
  obtain ⟨runs, run, hrun, hruns, hlonger⟩ := splitBy_concat_of_joined hm' h
  obtain ⟨front, last, hlast⟩ := (List.eq_nil_or_concat run).resolve_left hrun
  rw [hlonger, hruns, hlast, List.concat_eq_append, runEnds_concat, runEnds_concat,
    List.dropLast_concat]

end Ends

namespace Straightening

/-- What is held of a path: its runs in their last waypoints, and the heading of the last run. -/
structure Recounts (s : Straightening) (before : Path) : Prop where
  last : s.last = endPoint before
  kept : s.kept.reverse = runEnds (straightRuns before)
  heading : ∀ h, s.continues h = true ↔
    ∃ m ∈ (properStrides before).getLast?, m.moves = true ∧ m.heading.same h = true

theorem initial_recounts : Recounts initial [] where
  last := rfl
  kept := rfl
  heading h := by simp [continues, initial, properStrides, strides]

inductive Course (s : Straightening) (m : Stride) : Straightening → Prop
  | idle (hidle : m.idle = true) : Course s m { s with last := m.waypoint.point }
  | onward (hidle : m.idle = false) (hmoves : m.moves = true)
      (hsame : s.continues m.heading = true) :
      Course s m { s with last := m.waypoint.point, kept := m.waypoint :: s.kept.tail }
  | turn (hidle : m.idle = false) (hmoves : m.moves = true)
      (hsame : s.continues m.heading = false) :
      Course s m ⟨m.waypoint.point, some m.heading, m.waypoint :: s.kept⟩
  | pause (hmoves : m.moves = false) :
      Course s m ⟨m.waypoint.point, none, m.waypoint :: s.kept⟩

theorem step_course (s : Straightening) (w : Waypoint) :
    Course s ⟨w, w.point.sub s.last⟩ (s.step w) := by
  rw [step]
  split
  · rename_i hmoves
    dsimp only
    split
    · rename_i hstill
      exact .idle (Bool.and_eq_true_iff.2 ⟨hmoves, hstill⟩)
    · rename_i hfar
      have hidle : Stride.idle ⟨w, w.point.sub s.last⟩ = false := by
        simpa [Stride.idle] using fun _ => hfar
      split
      · rename_i hsame
        exact .onward hidle hmoves hsame
      · rename_i hsame
        exact .turn hidle hmoves (Bool.not_eq_true _ ▸ hsame)
  · rename_i hmoves
    exact .pause (Bool.not_eq_true _ ▸ hmoves)

theorem Recounts.step {s : Straightening} {before : Path} (hs : s.Recounts before)
    (w : Waypoint) : (s.step w).Recounts (before ++ [w]) := by
  have hproper := properStrides_concat before w
  have hcourse := step_course s w
  rw [hs.last] at hcourse
  generalize hm : Stride.mk w (w.point.sub (endPoint before)) = m at hproper hcourse
  generalize s.step w = t at hcourse ⊢
  have hend : m.waypoint.point = endPoint (before ++ [w]) := by
    rw [endPoint_concat, ← hm]
  cases hcourse with
  | idle hidle =>
    rw [if_pos hidle, List.append_nil] at hproper
    constructor
    · exact hend
    · rw [straightRuns, hproper]
      exact hs.kept
    · rw [hproper]
      exact hs.heading
  | onward hidle hmoves hsame =>
    rw [hidle, if_neg Bool.false_ne_true] at hproper
    obtain ⟨m', hm', hmoves', hsame'⟩ := (hs.heading m.heading).1 hsame
    have hline : m'.inLine m = true := Bool.and_eq_true_iff.2 ⟨hmoves', hsame'⟩
    constructor
    · exact hend
    · rw [straightRuns, hproper, runEnds_of_inLine hm' hline, List.reverse_cons,
        ← List.dropLast_reverse, hs.kept, straightRuns]
    · intro h
      -- equal directions are equal to the same third ones
      have hthird : m'.heading.same h = true ↔ m.heading.same h = true :=
        ⟨Heading.same_trans (Heading.same_symm hsame'), Heading.same_trans hsame'⟩
      have hheading := hs.heading h
      rw [Option.mem_def.1 hm'] at hheading
      change s.continues h = true ↔ _
      rw [hheading, hproper]
      simp [hmoves, hmoves', hthird]
  | turn hidle hmoves hsame =>
    rw [hidle, if_neg Bool.false_ne_true] at hproper
    have hbreak : ∀ m' ∈ (properStrides before).getLast?, m'.inLine m = false := by
      intro m' hm'
      rw [Bool.eq_false_iff]
      intro hline
      obtain ⟨hmoves', hsame'⟩ := Bool.and_eq_true_iff.1 hline
      rw [(hs.heading m.heading).2 ⟨m', hm', hmoves', hsame'⟩] at hsame
      cases hsame
    constructor
    · exact hend
    · rw [straightRuns, hproper, runEnds_of_break hbreak, List.reverse_cons, hs.kept, straightRuns]
    · intro h
      rw [hproper]
      simp [continues, hmoves]
  | pause hmoves =>
    have hidle : m.idle = false := by simp [Stride.idle, hmoves]
    rw [hidle, if_neg Bool.false_ne_true] at hproper
    have hbreak : ∀ m' ∈ (properStrides before).getLast?, m'.inLine m = false := by
      intro m' _
      rw [Bool.eq_false_iff]
      intro hline
      rw [Stride.moves_of_inLine hline] at hmoves
      cases hmoves
    constructor
    · exact hend
    · rw [straightRuns, hproper, runEnds_of_break hbreak, List.reverse_cons, hs.kept, straightRuns]
    · intro h
      rw [hproper]
      simp [continues, hmoves]

theorem foldl_recounts (p : Path) : (p.foldl Straightening.step initial).Recounts p := by
  induction p using List.reverseRecOn with
  | nil => exact initial_recounts
  | append_singleton p w ih =>
    rw [List.foldl_append]
    exact ih.step w

end Straightening

theorem straightRun_of_pause {p : Path} {run : List Stride} (hrun : run ∈ straightRuns p)
    {m : Stride} (hm : m ∈ run) (hmoves : m.moves = false) : run = [m] := by
  have hchain := List.isChain_of_mem_splitBy hrun
  obtain ⟨front, back, rfl⟩ := List.append_of_mem hm
  obtain ⟨-, hrest, hjoin⟩ := List.isChain_append.1 hchain
  have hback : back = [] := by
    cases back with
    | nil => rfl
    | cons m' back =>
      have hline := (List.isChain_cons_cons.1 hrest).1
      rw [(Bool.and_eq_true_iff.1 hline).1] at hmoves
      cases hmoves
  have hfront : front = [] := by
    rcases List.eq_nil_or_concat front with hnil | ⟨front, m', rfl⟩
    · exact hnil
    · have hline := hjoin m' (by simp) m rfl
      rw [Stride.moves_of_inLine hline] at hmoves
      cases hmoves
  rw [hfront, hback, List.nil_append]

/-- Straightening keeps the last waypoint of each run and all that are no moves. -/
theorem straighten_keeps_runEnds (p : Path) : straighten p = runEnds (straightRuns p) ∧
    (∀ run ∈ straightRuns p, ∀ m ∈ run, m.moves = false → run = [m]) ∧
    (straighten p).filter (!·.motion.travels) = p.filter (!·.motion.travels) ∧
    (straighten p).Sublist p := by
  refine ⟨(Straightening.foldl_recounts p).kept, ?_, ?_, ?_⟩
  · intro run hrun m hm hmoves
    exact straightRun_of_pause hrun hm hmoves
  · exact edits_straighten.filter_not_travels p
  · exact edits_straighten.sublist p

end Toolpath.Path
