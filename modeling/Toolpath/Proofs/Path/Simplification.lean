import Mathlib.Data.List.Forall2
import Mathlib.Data.List.SplitBy
import Toolpath.Proofs.Path.Windowless

/-!
# What simplification keeps

A path falls into stretches: the moves of one motion that follow each other, and every other
waypoint on its own. Simplification thins out each stretch and keeps its ends, so the stretches of
the result are those of the path.
-/

namespace Toolpath.Path

def continues (v w : Waypoint) : Bool := v.motion.travels && v.motion == w.motion

/-- The longest stretches in which each waypoint goes on the run of the one before. -/
def stretches (p : Path) : List (List Waypoint) := p.splitBy continues

theorem continues_iff {v w : Waypoint} :
    continues v w = true ↔ v.motion.travels = true ∧ w.motion = v.motion := by
  rw [continues, Bool.and_eq_true, beq_iff_eq, eq_comm (a := v.motion)]

/-- The way from `a` to `w` is hardly shorter than the one through `b`. -/
def passable (tolerance : Float) (a b w : Waypoint) : Bool :=
  (Window.three a.point b.point w.point).redundant tolerance

/-- What is kept of the rest of a stretch after `a`, when `b` is the newest waypoint. -/
def thinFrom (tolerance : Float) (a b : Waypoint) : List Waypoint → List Waypoint
  | [] => [b]
  | w :: ws =>
    if passable tolerance a b w then thinFrom tolerance a w ws else b :: thinFrom tolerance b w ws

/-- Simplification of one stretch, told by its waypoints and without a window. -/
def thin (tolerance : Float) : List Waypoint → List Waypoint
  | a :: b :: ws => a :: thinFrom tolerance a b ws
  | run => run

/-- Of the waypoints of a run, `kept` has both ends, and `P` holds of any two neighbours in it and
the waypoints dropped between them. -/
inductive Spaced (P : Waypoint → List Waypoint → Waypoint → Prop) :
    List Waypoint → List Waypoint → Prop
  | single (a : Waypoint) : Spaced P [a] [a]
  | gap {a b : Waypoint} {dropped run kept : List Waypoint} (h : P a dropped b)
      (rest : Spaced P (b :: run) (b :: kept)) :
      Spaced P (a :: (dropped ++ b :: run)) (a :: b :: kept)

/-- Part of a run, with both of its ends. -/
structure Thinned (run kept : List Waypoint) : Prop where
  sublist : kept.Sublist run
  first : kept.head? = run.head?
  last : kept.getLast? = run.getLast?

/-- Each waypoint between `a` and `b` was passable when its successor came. -/
def Passed (tolerance : Float) (a : Waypoint) (dropped : List Waypoint) (b : Waypoint) : Prop :=
  (dropped ++ [b]).IsChain fun v w => passable tolerance a v w = true

variable {tolerance : Float}

theorem Spaced.imp {P Q : Waypoint → List Waypoint → Waypoint → Prop} {run kept : List Waypoint}
    (h : Spaced P run kept)
    (hPQ : ∀ a dropped b, (∀ w ∈ a :: (dropped ++ [b]), w ∈ run) → P a dropped b → Q a dropped b) :
    Spaced Q run kept := by
  induction h with
  | single a => exact .single a
  | gap h _ ih =>
    refine .gap (hPQ _ _ _ ?_ h) (ih fun a dropped b hmem => hPQ a dropped b fun w hw => ?_)
    · intro w hw
      simp only [List.mem_cons, List.mem_append, List.not_mem_nil] at hw ⊢
      tauto
    · exact List.mem_cons_of_mem _ (List.mem_append_right _ (hmem w hw))

theorem Spaced.thinned {P : Waypoint → List Waypoint → Waypoint → Prop}
    {run kept : List Waypoint} (h : Spaced P run kept) : Thinned run kept := by
  induction h with
  | single a => exact ⟨.refl _, rfl, rfl⟩
  | gap _ _ ih =>
    refine ⟨(ih.sublist.trans (List.sublist_append_right ..)).cons_cons _, rfl, ?_⟩
    rw [List.getLast?_cons_cons, ih.last, ← List.cons_append,
      List.getLast?_append_of_ne_nil _ (by simp)]

theorem spaced_thinFrom {a b : Waypoint} {dropped ws : List Waypoint}
    (h : Passed tolerance a dropped b) :
    Spaced (Passed tolerance) (a :: (dropped ++ b :: ws)) (a :: thinFrom tolerance a b ws) := by
  induction ws generalizing a b dropped with
  | nil => exact .gap h (.single b)
  | cons w ws ih =>
    rw [thinFrom]
    split
    · rename_i hpass
      have hlonger : Passed tolerance a (dropped ++ [b]) w :=
        h.append (List.isChain_singleton w) (by simpa using hpass)
      simpa using ih hlonger
    · have hnew : Passed tolerance b [] w := List.isChain_singleton w
      exact .gap h (ih hnew)

theorem spaced_thin {run : List Waypoint} (hne : run ≠ []) :
    Spaced (Passed tolerance) run (thin tolerance run) := by
  match run, hne with
  | [a], _ => exact .single a
  | a :: b :: ws, _ =>
    have hnew : Passed tolerance a [] b := List.isChain_singleton b
    exact spaced_thinFrom hnew

namespace Trimmed

variable {t : Trimmed} {a b w : Waypoint} {earlier run ws : List Waypoint}

theorem step_joined (h : continues b w = true) :
    step tolerance ⟨earlier, b :: run⟩ w = ⟨earlier, keepNext tolerance w (b :: run)⟩ := by
  obtain ⟨htravels, hmotion⟩ := continues_iff.1 h
  have hmoves : w.motion.travels = true := hmotion ▸ htravels
  rw [step, if_pos hmoves]
  exact if_pos (congrArg some hmotion.symm)

theorem step_apart (h : ∀ v ∈ t.run.head?, continues v w = false) : step tolerance t w =
    if w.motion.travels then ⟨t.kept, [w]⟩ else ⟨w :: t.kept, []⟩ := by
  unfold step
  split
  · rename_i htravels
    refine if_neg fun hsame => ?_
    obtain ⟨v, hv, hmotion⟩ := Option.map_eq_some_iff.1 hsame
    have hjoined : continues v w = true := continues_iff.2 ⟨hmotion ▸ htravels, hmotion.symm⟩
    rw [h v hv] at hjoined
    cases hjoined
  · rfl

theorem eq_of_mem_head?_step {v : Waypoint} (h : v ∈ (t.step tolerance w).run.head?) : v = w := by
  unfold step at h
  split at h
  · split at h
    · rw [head?_keepNext] at h
      exact (Option.mem_some_iff.1 h).symm
    · exact (Option.mem_some_iff.1 h).symm
  · cases h

theorem foldl_run (h : (b :: ws).IsChain fun v w => continues v w = true) :
    ws.foldl (step tolerance) ⟨earlier, b :: a :: run⟩ =
      ⟨earlier, (thinFrom tolerance a b ws).reverse ++ a :: run⟩ := by
  induction ws generalizing a b run with
  | nil => rfl
  | cons w ws ih =>
    obtain ⟨hw, hrest⟩ := List.isChain_cons_cons.1 h
    rw [List.foldl_cons, step_joined hw, keepNext, thinFrom]
    by_cases hneedless : Needless tolerance a b w
    · have hpass : passable tolerance a b w = true := decide_eq_true hneedless
      rw [if_pos hneedless, if_pos hpass, ih hrest]
    · have hpass : ¬ passable tolerance a b w = true := fun h => hneedless (of_decide_eq_true h)
      rw [if_neg hneedless, if_neg hpass, ih hrest, List.reverse_cons, List.append_assoc,
        List.singleton_append]

/-- A stretch is thinned on its own if it does not go on the current run. -/
theorem kept_foldl_stretch (tolerance : Float)
    (ht : ∀ v ∈ t.run.head?, continues v a = false)
    (h : (a :: ws).IsChain fun v w => continues v w = true) :
    ((a :: ws).foldl (step tolerance) t).kept = (thin tolerance (a :: ws)).reverse ++ t.kept := by
  rw [List.foldl_cons, step_apart ht]
  cases ws with
  | nil => split <;> rfl
  | cons b ws =>
    obtain ⟨hb, hrest⟩ := List.isChain_cons_cons.1 h
    have hsecond : keepNext tolerance b [a] = [b, a] := rfl
    rw [if_pos (continues_iff.1 hb).1, List.foldl_cons, step_joined hb, hsecond, foldl_run hrest]
    simp [thin, kept]

/-- Stretches that do not continue each other are thinned one after the other. -/
theorem kept_foldl_stretches (tolerance : Float) {t : Trimmed} {runs : List (List Waypoint)}
    (hne : [] ∉ runs) (hchain : ∀ run ∈ runs, run.IsChain fun v w => continues v w = true)
    (hbreak : runs.IsChain fun q r => ∃ hq hr, continues (q.getLast hq) (r.head hr) = false)
    (ht : ∀ a ∈ runs.flatten.head?, ∀ v ∈ t.run.head?, continues v a = false) :
    (runs.flatten.foldl (step tolerance) t).kept =
      (runs.flatMap (thin tolerance)).reverse ++ t.kept := by
  induction runs generalizing t with
  | nil => simp
  | cons run runs ih =>
    obtain ⟨hnext, hbreak'⟩ := List.isChain_cons.1 hbreak
    cases run with
    | nil => simp at hne
    | cons a ws =>
      have hne' : [] ∉ runs := fun hmem => hne (by simp [hmem])
      have hstretch := kept_foldl_stretch tolerance (ht a (by simp))
        (hchain (a :: ws) (by simp))
      rw [List.flatten_cons, List.foldl_append, ih hne' (fun r hr => hchain r (by simp [hr]))
        hbreak', hstretch, List.flatMap_cons, List.reverse_append, List.append_assoc]
      intro b hb u hu
      -- the last waypoint of the stretch is the last one before `b`
      obtain ⟨r, runs', rfl⟩ := List.exists_cons_of_ne_nil (l := runs) (by rintro rfl; simp at hb)
      obtain ⟨hq, hr, hlast⟩ := hnext r rfl
      obtain ⟨c, cs, rfl⟩ := List.exists_cons_of_ne_nil hr
      obtain rfl : c = b := by simpa using hb
      obtain ⟨front, v, hsplit⟩ := List.eq_nil_or_concat (a :: ws) |>.resolve_left (by simp)
      simp only [hsplit, List.concat_eq_append, List.getLast_append_singleton,
        List.head_cons] at hlast
      rw [hsplit, List.concat_eq_append, List.foldl_append] at hu
      exact eq_of_mem_head?_step hu ▸ hlast

end Trimmed

theorem simplify_eq (tolerance : Float) (p : Path) :
    simplify tolerance p = (stretches p).flatMap (thin tolerance) := by
  have hkept := Trimmed.kept_foldl_stretches tolerance (t := .initial)
    (List.nil_notMem_splitBy continues p) (fun _ => List.isChain_of_mem_splitBy)
    (List.isChain_getLast_head_splitBy continues p) (fun a _ v hv => by cases hv)
  rw [List.flatten_splitBy] at hkept
  rw [simplify_eq_trim, trim, hkept]
  simp [Trimmed.initial, Trimmed.kept, stretches]

instance : IsTrans Waypoint fun v w => continues v w = true where
  trans u v w huv hvw := by
    rw [continues_iff] at huv hvw ⊢
    exact ⟨huv.1, hvw.2.trans huv.2⟩

theorem Thinned.isChain {run kept : List Waypoint} (h : Thinned run kept)
    (hrun : run.IsChain fun v w => continues v w = true) :
    kept.IsChain fun v w => continues v w = true :=
  (hrun.pairwise.sublist h.sublist).isChain

theorem thinned_thin (tolerance : Float) (run : List Waypoint) :
    Thinned run (thin tolerance run) := by
  by_cases hne : run = []
  · subst hne
    exact ⟨.refl _, rfl, rfl⟩
  · exact (spaced_thin hne).thinned

theorem thin_ne_nil {run : List Waypoint} (hne : run ≠ []) : thin tolerance run ≠ [] := by
  have hfirst := (thinned_thin tolerance run).first
  rwa [ne_eq, ← List.head?_eq_none_iff, hfirst, List.head?_eq_none_iff]

theorem stretches_simplify (tolerance : Float) (p : Path) :
    stretches (simplify tolerance p) = (stretches p).map (thin tolerance) := by
  rw [simplify_eq, List.flatMap_def]
  apply List.splitBy_flatten
  · intro hmem
    obtain ⟨run, hrun, hnil⟩ := List.mem_map.1 hmem
    exact thin_ne_nil (List.ne_nil_of_mem_splitBy hrun) hnil
  · intro kept hkept
    obtain ⟨run, hrun, rfl⟩ := List.mem_map.1 hkept
    exact (thinned_thin tolerance run).isChain (List.isChain_of_mem_splitBy hrun)
  · rw [List.isChain_map]
    refine (List.isChain_getLast_head_splitBy continues p).imp ?_
    rintro q r ⟨hq, hr, hbreak⟩
    refine ⟨thin_ne_nil hq, thin_ne_nil hr, ?_⟩
    have hlast := (thinned_thin tolerance q).last
    have hfirst := (thinned_thin tolerance r).first
    rw [List.getLast?_eq_getLast_of_ne_nil (thin_ne_nil hq),
      List.getLast?_eq_getLast_of_ne_nil hq, Option.some.injEq] at hlast
    rw [List.head?_eq_some_head (thin_ne_nil hr), List.head?_eq_some_head hr,
      Option.some.injEq] at hfirst
    rwa [hlast, hfirst]

theorem spaced_simplify (tolerance : Float) (p : Path) :
    List.Forall₂ (Spaced (Passed tolerance)) (stretches p) (stretches (simplify tolerance p)) := by
  rw [stretches_simplify, List.forall₂_map_right_iff, List.forall₂_same]
  exact fun run hrun => spaced_thin (List.ne_nil_of_mem_splitBy hrun)

theorem stretch_travels {p : Path} {a b : Waypoint} {run : List Waypoint}
    (h : a :: b :: run ∈ stretches p) : ∀ w ∈ a :: b :: run, w.motion.travels = true := by
  have hpair := (List.isChain_of_mem_splitBy h).pairwise
  have ha := (List.pairwise_cons.1 hpair).1
  intro w hw
  rcases List.mem_cons.1 hw with rfl | hw
  · exact (continues_iff.1 (ha b (by simp))).1
  · obtain ⟨htravels, hmotion⟩ := continues_iff.1 (ha w hw)
    rwa [hmotion]

theorem filter_thin {p : Path} {run : List Waypoint} (h : run ∈ stretches p) :
    (thin tolerance run).filter (!·.motion.travels) = run.filter (!·.motion.travels) := by
  match run, h with
  | [], _ => rfl
  | [a], _ => rfl
  | a :: b :: ws, h =>
    have hrun : (a :: b :: ws).filter (!·.motion.travels) = [] := by
      simpa using stretch_travels h
    have hsub := (thinned_thin tolerance (a :: b :: ws)).sublist.filter (!·.motion.travels)
    rw [hrun] at hsub ⊢
    exact List.sublist_nil.1 hsub

/-- Simplification keeps whatever is not a move, and of each run of moves a part with both ends. -/
theorem simplify_thins_runs (tolerance : Float) (p : Path) :
    List.Forall₂ Thinned (stretches p) (stretches (simplify tolerance p)) ∧
      (simplify tolerance p).filter (!·.motion.travels) = p.filter (!·.motion.travels) := by
  refine ⟨(spaced_simplify tolerance p).imp fun _ _ h => h.thinned, ?_⟩
  have hp : p = (stretches p).flatten := (List.flatten_splitBy continues p).symm
  rw [simplify_eq, List.filter_flatMap]
  conv_rhs => rw [hp, List.filter_flatten]
  rw [List.flatMap_def, List.map_congr_left fun run hrun => filter_thin hrun]

end Toolpath.Path
