import Toolpath.Job.Passes
import Toolpath.Machine.Run
import Toolpath.Program.Listing

/-!
# Compilation

From the text of a program to its finished path.
-/

namespace Toolpath.Job

open Machine (Tolerances Fault BlockFault)
open Program (LineError)

inductive Failure where
  | badProgram (e : LineError)
  | badTolerances (f : Fault)
  | stopped (f : BlockFault)
  | heightRefused (r : Passes.HeightRefused)

def Failure.messages : Failure → List String
  | .badProgram e => ["failed to parse program", e.message, e.error.message]
  | .badTolerances f => [f.message]
  | .stopped f => ["failed to interpret program", f.message, f.fault.message]
  | .heightRefused r =>
    ["failed to set safety height " ++ Number.text r.height, r.refusal.message]

def interpret (t : Tolerances) (text : List Char) : Except Failure Path := do
  let blocks ← (Program.blocks text).mapError .badProgram
  let m ← (Machine.withTolerances t).mapError .badTolerances
  match m.run blocks with
  | ⟨m, none⟩ => return m.path.toList
  | ⟨_, some f⟩ => throw (.stopped f)

/-- Warnings are given also when the job fails. -/
structure Compiled where
  result : Except Failure Path
  warnings : List Warning

def finish (a : Passes.Applied) : Compiled where
  result := match a.refused with
    | none => .ok a.path
    | some r => .error (.heightRefused r)
  warnings := a.warnings

def compile (t : Tolerances) (passes : Passes) (text : List Char) : Compiled :=
  match interpret t text with
  | .error f => ⟨.error f, []⟩
  | .ok p => finish (passes.apply p)

end Toolpath.Job
