import Toolpath.Number.Text

/-!
# Faults

The reasons for which a machine refuses a block, and their wording.
-/

namespace Toolpath.Machine

inductive Fault where
  | notANumber
  | zeroRadius
  | radiusMismatch (percent difference : Float)
  | tooFewRotations (rotations : Float)
  | badTolerance (name : String) (value : Float)
  | noMotion
  | unsupported (letter : Char) (value : Float)
  | noSuchFrame (index : Float)

open Number (text fixed)

def Fault.message : Fault → String
  | .notANumber => "internal failure: move attempted with NaN value"
  | .zeroRadius => "invalid arc: zero radius"
  | .radiusMismatch percent difference =>
    "arc radius deviation of " ++ fixed 4 percent ++ " percent and " ++ fixed 4 difference ++ " mm"
  | .tooFewRotations rotations => "arc rotations must be at least 1, got " ++ text rotations
  | .badTolerance name value => name ++ " must be positive, got " ++ text value
  | .noMotion => "coordinates given without an active motion mode"
  | .unsupported letter value => "unsupported word " ++ letter.toString ++ text value
  | .noSuchFrame index => "invalid coordinate system " ++ text index

/-- A fault and the number of the block it arose in, counted from one. -/
structure BlockFault where
  block : Nat
  fault : Fault

def BlockFault.message (f : BlockFault) : String :=
  "block " ++ toString f.block ++ ": " ++ f.fault.message

end Toolpath.Machine
