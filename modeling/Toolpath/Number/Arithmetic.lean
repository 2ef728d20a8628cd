/-!
# Arithmetic beyond the four operations

Extrema that ignore a missing number, truncation, and the length of the hypotenuse. The
hypotenuse is the correctly rounded root of the exact sum of squares.
-/

namespace Toolpath.Number

open Float.Model (UnpackedFloat Format)

/-- The larger number. A value that is not a number loses, and the second of two equal ones wins. -/
def larger (a b : Float) : Float := if a.isNaN ∨ a ≤ b then b else a

/-- The smaller number. A value that is not a number loses, and the second of two equal ones wins. -/
def smaller (a b : Float) : Float := if a.isNaN ∨ b ≤ a then b else a

def isWhole (x : Float) : Bool :=
  match x.toModel.unpack with
  | .zero _ => true
  | .finite _ m e _ => 0 ≤ e ∨ m % Nat.pow 2 (-e).toNat = 0
  | _ => false

/-- The least whole number not below `x`, within 64 bits. -/
def ceiling (x : Float) : Nat :=
  let n := x.toUInt64
  if n.toFloat < x ∧ n.toNat + 1 < UInt64.size then n.toNat + 1 else n.toNat

/-- An infinite side wins over a side that is not a number. -/
def hypotenuse (x y : Float) : Float :=
  match x.toModel.unpack, y.toModel.unpack with
  | .infinity _, _ | _, .infinity _ => .ofModel (.pack (.infinity .positive))
  | .notANumber, _ | _, .notANumber => .ofModel (.pack .notANumber)
  | .zero _, _ => y.abs
  | _, .zero _ => x.abs
  | .finite _ a e _, .finite _ b f _ =>
    let g := min e f
    let a := a <<< (e - g).toNat
    let b := b <<< (f - g).toNat
    let (root, h, accuracy) :=
      UnpackedFloat.sqrtCore Format.binary64 (a * a + b * b) (2 * g)
    .ofModel (.pack (UnpackedFloat.roundWithAccuracy Format.binary64 .positive root h accuracy))

end Toolpath.Number
