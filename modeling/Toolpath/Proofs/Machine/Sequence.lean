import Toolpath.Machine.Run
import Toolpath.Proofs.Program.Listing

/-!
# Programs one after the other

A program that comes to its end without a fault leaves a machine from which the next program runs.
Blocks are counted through, so that the number of a fault is that of the first line at fault.
-/

namespace Toolpath.Machine

open Program (Block EndsLine LineAt LineError)

def BlockFault.raise (f : BlockFault) (count : Nat) : BlockFault :=
  { f with block := f.block + count }

section Counting

variable {m n : Machine} {b : Block} {number : Nat}

theorem runFrom_cons_of_done (h : m.runBlock b = .done n) (number : Nat) (bs : List Block) :
    m.runFrom number (b :: bs) = n.runFrom (number + 1) bs := by
  rw [runFrom, h]
  rfl

theorem runFrom_cons_of_stopped {fault : Fault} (h : m.runBlock b = .stopped n fault)
    (number : Nat) (bs : List Block) :
    m.runFrom number (b :: bs) = .stopped n ⟨number, fault⟩ := by
  rw [runFrom, h]
  rfl

theorem Outcome.done_or_stopped {ε : Type} (o : Outcome ε) :
    (∃ n, o = .done n) ∨ ∃ n e, o = .stopped n e := by
  obtain ⟨n, fault⟩ := o
  cases fault with
  | none => exact .inl ⟨n, rfl⟩
  | some e => exact .inr ⟨n, e, rfl⟩

theorem runFrom_raise (m : Machine) (number count : Nat) (bs : List Block) :
    m.runFrom (number + count) bs = (m.runFrom number bs).mapFault (·.raise count) := by
  induction bs generalizing m number with
  | nil => rfl
  | cons b bs ih =>
    rcases (m.runBlock b).done_or_stopped with ⟨n, hn⟩ | ⟨n, fault, hn⟩
    · rw [runFrom_cons_of_done hn, runFrom_cons_of_done hn, Nat.add_right_comm, ih]
    · rw [runFrom_cons_of_stopped hn, runFrom_cons_of_stopped hn]
      rfl

theorem runFrom_append (m : Machine) (number : Nat) (as bs : List Block) :
    m.runFrom number (as ++ bs) =
      (m.runFrom number as).andThen fun n => n.runFrom (number + as.length) bs := by
  induction as generalizing m number with
  | nil => rfl
  | cons b as ih =>
    rw [List.cons_append]
    rcases (m.runBlock b).done_or_stopped with ⟨n, hn⟩ | ⟨n, fault, hn⟩
    · rw [runFrom_cons_of_done hn, runFrom_cons_of_done hn, ih, List.length_cons,
        show number + (as.length + 1) = number + 1 + as.length by omega]
    · rw [runFrom_cons_of_stopped hn, runFrom_cons_of_stopped hn]
      rfl

theorem runFrom_stopped {bs : List Block} {f : BlockFault}
    (h : m.runFrom number bs = .stopped n f) :
    ∃ before b after k, bs = before ++ b :: after ∧ f.block = number + before.length ∧
      m.runFrom number before = .done k ∧ k.runBlock b = .stopped n f.fault := by
  induction bs generalizing m number with
  | nil => cases h
  | cons b bs ih =>
    rcases (m.runBlock b).done_or_stopped with ⟨k, hk⟩ | ⟨k, fault, hk⟩
    · rw [runFrom_cons_of_done hk] at h
      obtain ⟨before, c, after, l, rfl, hnumber, hbefore, hc⟩ := ih h
      refine ⟨b :: before, c, after, l, rfl, ?_, ?_, hc⟩
      · rw [hnumber, List.length_cons]
        omega
      · rw [runFrom_cons_of_done hk, hbefore]
    · rw [runFrom_cons_of_stopped hk] at h
      cases h
      exact ⟨[], b, bs, m, rfl, rfl, rfl, hk⟩

theorem run_append (m : Machine) (as bs : List Block) :
    m.run (as ++ bs) =
      (m.run as).andThen fun n => (n.run bs).mapFault (·.raise as.length) := by
  unfold run
  rw [runFrom_append]
  simp only [runFrom_raise]

end Counting

/-- A listing that ends its last line, and a program, can be carried on: what follows is read and
run as if on its own, with the numbers of its lines raised. An error in reading, and a fault in
running, are those of the first line that has one, and all lines before it are read, or done. -/
theorem programs_compose :
    (∀ text bs more, EndsLine text → Program.blocks text = .ok bs →
      Program.blocks (text ++ more) =
        ((Program.blocks more).map (bs ++ ·)).mapError (·.raise bs.length)) ∧
    (∀ (m : Machine) (as bs : List Block),
      m.run (as ++ bs) =
        (m.run as).andThen fun n => (n.run bs).mapFault (·.raise as.length)) ∧
    (∀ text e, Program.blocks text = .error e →
      (∃ line, LineAt text e.line line ∧ Block.ofLine line = .error e.error) ∧
        ∀ n < e.line, ∀ line, LineAt text n line → ∃ b, Block.ofLine line = .ok b) ∧
    ∀ text bs, Program.blocks text = .ok bs → ∀ (m n : Machine) (f : BlockFault),
      m.run bs = .stopped n f →
      ∃ before b after line k, bs = before ++ b :: after ∧ f.block = before.length + 1 ∧
        LineAt text f.block line ∧ Block.ofLine line = .ok b ∧
        m.run before = .done k ∧ k.runBlock b = .stopped n f.fault := by
  refine ⟨fun text bs more hends hbs => Program.blocks_append hends hbs more, run_append,
    fun text e he => Program.first_bad_line he, ?_⟩
  intro text bs hbs m n f hf
  obtain ⟨before, b, after, k, rfl, hnumber, hbefore, hb⟩ := runFrom_stopped hf
  -- The block at fault is where the lines before it end, in the listing as in the run.
  obtain ⟨line, hline, hread⟩ := Program.exists_line_of_block hbs
  rw [Nat.add_comm] at hnumber
  exact ⟨before, b, after, line, k, rfl, hnumber, hnumber ▸ hline, hread, hbefore, hb⟩

def opening : List Char := "G0 X10\r\n\n".toList

def closing : List Char := "G2 X0 Y0 I-10 J0".toList

def misspelt : List Char := "G0 X1\nG1 X1..2\n".toList

theorem opening_closing_compose :
    (EndsLine opening ∧ ∃ bs, Program.blocks opening = .ok bs ∧ bs.length = 2 ∧
      Program.blocks (opening ++ closing) =
        ((Program.blocks closing).map (bs ++ ·)).mapError (·.raise bs.length)) ∧
    (∃ e, Program.blocks misspelt = .error e ∧ e.line = 2 ∧
      (∃ line, LineAt misspelt e.line line ∧ Block.ofLine line = .error e.error) ∧
        ∀ n < e.line, ∀ line, LineAt misspelt n line → ∃ b, Block.ofLine line = .ok b) ∧
    ∃ bs n f, Program.blocks (opening ++ closing) = .ok bs ∧ initial.run bs = .stopped n f ∧
      f.block = 3 ∧
      ∃ before b after line k, bs = before ++ b :: after ∧ f.block = before.length + 1 ∧
        LineAt (opening ++ closing) f.block line ∧ Block.ofLine line = .ok b ∧
        initial.run before = .done k ∧ k.runBlock b = .stopped n f.fault := by
  obtain ⟨hread, -, herror, hfault⟩ := programs_compose
  refine ⟨⟨.inr (by decide), ?_⟩, ?_, ?_⟩
  · have hlength : (Program.blocks opening).toOption.map List.length = some 2 := by
      decide +kernel
    cases hbs : Program.blocks opening with
    | error e => rw [hbs] at hlength; cases hlength
    | ok bs =>
      rw [hbs] at hlength
      exact ⟨bs, rfl, Option.some.inj hlength, hread opening bs closing (.inr (by decide)) hbs⟩
  · have hline : (match Program.blocks misspelt with
        | .error e => e.line
        | .ok _ => 0) = 2 := by decide +kernel
    cases he : Program.blocks misspelt with
    | ok bs => rw [he] at hline; cases hline
    | error e =>
      rw [he] at hline
      exact ⟨e, rfl, hline, herror misspelt e he⟩
  · have hblock : (Program.blocks (opening ++ closing)).toOption.bind
        (fun bs => (initial.run bs).fault.map (·.block)) = some 3 := by decide +kernel
    cases hbs : Program.blocks (opening ++ closing) with
    | error e => rw [hbs] at hblock; cases hblock
    | ok bs =>
      rw [hbs] at hblock
      obtain ⟨f, hf, hthree⟩ := Option.map_eq_some_iff.1 hblock
      have hstopped : initial.run bs = .stopped (initial.run bs).machine f := by
        rw [Outcome.stopped, ← hf]
      exact ⟨bs, _, f, rfl, hstopped, hthree, hfault _ bs hbs _ _ f hstopped⟩

end Toolpath.Machine
