import Toolpath.Machine.Basic
import Toolpath.Program.Block

/-!
# Setting words

What the words of a block change before anything moves. Each group of words is applied by one
function, and the groups are applied in a fixed order.
-/

namespace Toolpath.Machine

open Toolpath.Geometry (Point Plane)
open Toolpath.Path (Modal Motion)
open Program (Block Word)

def settingCodesG : List Float :=
  [0, 1, 2, 3, 4, 10, 17, 18, 19, 20, 21, 53, 54, 55, 56, 57, 58, 59, 90, 90.1, 91, 91.1]

def idleCodesG : List Float := [40, 49, 61, 64, 80, 94]

def settingCodesM : List Float := [3, 4, 5, 6, 7, 8, 9]

/-- Accepted without any effect on the path. -/
def idleCodesM : List Float := [0, 1, 2, 30]

def supports (w : Word) : Bool :=
  if w.letter = 'G' then (settingCodesG ++ idleCodesG).any (Block.sameCode w.value)
  else if w.letter = 'M' then (settingCodesM ++ idleCodesM).any (Block.sameCode w.value)
  else true

def firstUnsupported (b : Block) : Option Word := b.words.find? (!supports ·)

def setUnits (m : Machine) (b : Block) : Machine :=
  if b.hasCode 'G' 20 then { m with inches := true }
  else if b.hasCode 'G' 21 then { m with inches := false }
  else m

def setFeedrate (m : Machine) (b : Block) : Machine :=
  match b.value? 'F' with
  | some feed =>
    { m with modal := { m.modal with feedrate := if m.inches then feed * 25.4 else feed } }
  | none => m

def setSpindleSpeed (m : Machine) (b : Block) : Machine :=
  match b.value? 'S' with
  | some speed => { m with modal := { m.modal with spindleSpeed := speed } }
  | none => m

/-- A tool number is cut to a whole number between zero and the largest of 32 bits. -/
def setTool (m : Machine) (b : Block) : Machine :=
  let modal := match b.value? 'T' with
    | some tool => { m.modal with nextTool := tool.toUInt32 }
    | none => m.modal
  { m with modal := if b.hasCode 'M' 6 then { modal with tool := modal.nextTool } else modal }

/-- One switch code. Its fraction does not count. -/
def switch (modal : Modal) (code : Float) : Modal :=
  match code.toUInt32 with
  | 3 => { modal with spindleOn := true, spindleClockwise := true }
  | 4 => { modal with spindleOn := true, spindleClockwise := false }
  | 5 => { modal with spindleOn := false }
  | 7 => { modal with mist := true }
  | 8 => { modal with flood := true }
  | 9 => { modal with mist := false, flood := false }
  | _ => modal

def setSwitches (m : Machine) (b : Block) : Machine :=
  { m with modal := (b.values 'M').foldl switch m.modal }

def setPlane (m : Machine) (b : Block) : Machine :=
  if b.hasCode 'G' 17 then { m with plane := .xy }
  else if b.hasCode 'G' 18 then { m with plane := .xz }
  else if b.hasCode 'G' 19 then { m with plane := .yz }
  else m

/-- The number of the frame that a code from 54 to 59 selects. Its fraction does not count. -/
def frameOfCode? (code : Float) : Option Nat :=
  if 54 ≤ code ∧ code ≤ 59 then some (code.toUInt64.toNat - 53) else none

def setFrame (m : Machine) (b : Block) : Outcome Fault :=
  let override := m.frames.override || b.hasCode 'G' 53
  let m := { m with frames := { m.frames with override } }
  match (b.values 'G').findSome? frameOfCode? with
  | none => .done m
  | some index =>
    match m.frames.select index with
    | .error e => .stopped m e
    | .ok frames => .done { m with frames }

def setDistanceMode (m : Machine) (b : Block) : Machine :=
  if b.hasCode 'G' 90 then { m with absoluteMoves := true }
  else if b.hasCode 'G' 91 then { m with absoluteMoves := false }
  else m

def setCenterMode (m : Machine) (b : Block) : Machine :=
  if b.hasCode 'G' 90.1 then { m with absoluteCenters := true }
  else if b.hasCode 'G' 91.1 then { m with absoluteCenters := false }
  else m

/-- A code with a fraction selects no motion. -/
def motionOfCode (current : Motion) (code : Float) : Motion :=
  if Number.isWhole code then
    match code.toUInt32 with
    | 0 => .rapid
    | 1 => .linear
    | 2 => .clockwise
    | 3 => .counterclockwise
    | _ => current
  else current

def setMotion (m : Machine) (b : Block) : Machine :=
  { m with modal := { m.modal with motion := (b.values 'G').foldl motionOfCode m.modal.motion } }

/-- Units come first, so that they hold for the feedrate of the same block. -/
def applyState (m : Machine) (b : Block) : Machine :=
  m.setUnits b |>.setFeedrate b |>.setSpindleSpeed b |>.setTool b |>.setSwitches b |>.setPlane b

def applyModes (m : Machine) (b : Block) : Machine :=
  m.setDistanceMode b |>.setCenterMode b |>.setMotion b

/-- The frame whose offset a block sets. Frame zero is the selected one. -/
def offsetFrame (m : Machine) (b : Block) : Except Fault Nat :=
  let p := b.valueD 'P' 0
  if p == 0 then .ok m.frames.number
  else if Number.isWhole p ∧ 0 < p then .ok p.toUInt64.toNat
  else .error (.noSuchFrame p)

/-- The frames after `G10 L2`, whose X, Y and Z are an offset and not a move. -/
def workOffset (m : Machine) (b : Block) : Except Fault Frames :=
  match b.value? 'L' with
  | none => .error (.unsupported 'G' 10)
  | some l =>
    if Block.sameCode l 2 then do
      let index ← m.offsetFrame b
      m.frames.setOffset index
        ⟨b.valueD 'X' 0 * m.scale, b.valueD 'Y' 0 * m.scale, b.valueD 'Z' 0 * m.scale⟩
    else .error (.unsupported 'L' l)

end Toolpath.Machine
