import Toolpath.Machine.Arc
import Toolpath.Machine.Words

/-!
# Running blocks

A block sets the state of the machine and then moves it. A run stops at the first fault; what the
faulty block did before stays done.
-/

namespace Toolpath.Machine

open Toolpath.Geometry (Point)
open Program (Block)

structure Target where
  finish : Point
  center : Point

/-- A missing coordinate keeps the previous one. The override makes coordinates absolute. -/
def target (m : Machine) (b : Block) : Target :=
  let here := m.position.point
  let offset := m.frames.offset
  let absolute := m.absoluteMoves || m.frames.override
  let axis := fun letter (previous origin : Float) =>
    match b.value? letter with
    | none => previous
    | some v => if absolute then v * m.scale + origin else v * m.scale + previous
  let base := if m.absoluteCenters then offset else here
  { finish := ⟨axis 'X' here.x offset.x, axis 'Y' here.y offset.y, axis 'Z' here.z offset.z⟩
    center := ⟨b.valueD 'I' 0 * m.scale + base.x, b.valueD 'J' 0 * m.scale + base.y,
      b.valueD 'K' 0 * m.scale + base.z⟩ }

def hasAxis (b : Block) : Bool := ['X', 'Y', 'Z'].any fun l => (b.value? l).isSome

def hasCenter (b : Block) : Bool := ['I', 'J', 'K'].any fun l => (b.value? l).isSome

/-- Moves as the motion setting says. Without coordinates nothing moves. -/
def move (m : Machine) (b : Block) : Outcome Fault :=
  match m.modal.motion with
  | .rapid | .linear => if hasAxis b then m.moveTo (m.target b).finish else .done m
  | .clockwise | .counterclockwise =>
    if hasAxis b || hasCenter b then
      m.arc (m.target b).finish (m.target b).center (b.valueD 'P' 1)
    else .done m
  | .unset | .dwell => if hasAxis b then .stopped m .noMotion else .done m

def dwellIfAsked (m : Machine) (b : Block) : Machine :=
  if b.hasCode 'G' 4 then m.dwell (b.valueD 'P' 0) else m

def apply (m : Machine) (b : Block) : Outcome Fault :=
  match firstUnsupported b with
  | some w => .stopped m (.unsupported w.letter w.value)
  | none =>
    ((m.applyState b).setFrame b).andThen fun m =>
      if b.hasCode 'G' 10 then
        match m.workOffset b with
        | .error e => .stopped m e
        | .ok frames => .done ((({ m with frames }).applyModes b).dwellIfAsked b)
      else ((m.applyModes b).dwellIfAsked b).move b

def clearOverride (m : Machine) : Machine := { m with frames := { m.frames with override := false } }

/-- The override lasts for one block. -/
def runBlock (m : Machine) (b : Block) : Outcome Fault :=
  if b.isEmpty then .done m
  else
    let o := m.apply b
    { o with machine := o.machine.clearOverride }

def runFrom (m : Machine) (number : Nat) : List Block → Outcome BlockFault
  | [] => .done m
  | b :: bs =>
    match m.runBlock b with
    | ⟨m, none⟩ => runFrom m (number + 1) bs
    | ⟨m, some fault⟩ => .stopped m { block := number, fault }

def run (m : Machine) (bs : List Block) : Outcome BlockFault := m.runFrom 1 bs

end Toolpath.Machine
