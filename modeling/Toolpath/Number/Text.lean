import Toolpath.Number.Shortest

/-!
# Numbers as text

Shortest text in a given style, and text with a fixed number of decimals.
-/

namespace Toolpath.Number

open Float.Model (UnpackedFloat)

/-- How a number is written: the rule for ties, the decimal exponents that are written out in
positions, and whether a whole number ends in `.0`. -/
structure Style where
  tie : Tie
  positional : Int → Bool
  wholePoint : Bool

def Style.plain : Style where
  tie := .up
  positional := fun _ => true
  wholePoint := false

def Style.report : Style where
  tie := .even
  positional := fun e => -5 ≤ e ∧ e < 16
  wholePoint := true

def zeros (n : Nat) : String := String.ofList (List.replicate n '0')

def Scaled.inPositions (s : Scaled) (wholePoint : Bool) : String :=
  let ds := toString s.digits
  if 0 ≤ s.exponent then
    ds ++ zeros s.exponent.toNat ++ (if wholePoint then ".0" else "")
  else
    let places := (-s.exponent).toNat
    let padded := zeros (places + 1 - ds.length) ++ ds
    let whole := padded.length - places
    String.ofList (padded.toList.take whole) ++ "." ++ String.ofList (padded.toList.drop whole)

def Scaled.withExponent (s : Scaled) : String :=
  let ds := (toString s.digits).toList
  let e := s.exponent + (ds.length - 1 : Nat)
  let mantissa := match ds with
    | d :: f :: fs => String.ofList (d :: '.' :: f :: fs)
    | ds => String.ofList ds
  mantissa ++ "e" ++ (if 0 ≤ e then "+" else "-") ++ toString e.natAbs

def Style.write (style : Style) (s : Scaled) : String :=
  let e := s.exponent + ((toString s.digits).length - 1 : Nat)
  if style.positional e then s.inPositions style.wholePoint else s.withExponent

def signText : UnpackedFloat.Sign → String
  | .positive => ""
  | .negative => "-"

def Style.text (style : Style) (x : Float) : String :=
  match x.toModel.unpack with
  | .notANumber => "NaN"
  | .infinity s => signText s ++ "inf"
  | .zero s => signText s ++ Scaled.inPositions ⟨0, 0⟩ style.wholePoint
  | .finite s m q _ => signText s ++ style.write (shortest style.tie m q)

def text (x : Float) : String := Style.plain.text x

/-- `num / den` to the nearest whole number, a half to the even neighbour. -/
def divRound (num den : Nat) : Nat :=
  let q := num / den
  let r := num % den
  if 2 * r < den then q
  else if den < 2 * r then q + 1
  else q + q % 2

/-- The exact value with `places` decimals. A negative value keeps its sign when it rounds to
zero. -/
def fixed (places : Nat) (x : Float) : String :=
  match x.toModel.unpack with
  | .notANumber => "NaN"
  | .infinity s => signText s ++ "inf"
  | .zero s => signText s ++ Scaled.inPositions ⟨0, -places⟩ false
  | .finite s m q _ =>
    let n := divRound (m * Nat.pow 2 q.toNat * Nat.pow 10 places) (Nat.pow 2 (-q).toNat)
    signText s ++ Scaled.inPositions ⟨n, -places⟩ false

end Toolpath.Number
