/-!
# Reading decimals

A decimal is an optional sign, digits with an optional point, and an optional exponent. Its value
is the nearest double.
-/

namespace Toolpath.Number

/-- The number `± digits * 10 ^ exponent` as written. -/
structure Decimal where
  negative : Bool
  digits : Nat
  exponent : Int
  deriving DecidableEq, Repr

def Decimal.value (d : Decimal) : Float :=
  let x := Float.ofScientific d.digits (d.exponent < 0) d.exponent.natAbs
  if d.negative then -x else x

def ofDigits (cs : List Char) : Nat :=
  cs.foldl (fun n c => 10 * n + (c.toNat - '0'.toNat)) 0

def splitSign : List Char → Bool × List Char
  | '-' :: cs => (true, cs)
  | '+' :: cs => (false, cs)
  | cs => (false, cs)

def splitPoint (cs : List Char) : List Char × List Char × List Char :=
  let whole := cs.takeWhile Char.isDigit
  match cs.dropWhile Char.isDigit with
  | '.' :: rest => (whole, rest.takeWhile Char.isDigit, rest.dropWhile Char.isDigit)
  | rest => (whole, [], rest)

/-- The exponent part, which takes up all of the text or is missing. -/
def exponent? : List Char → Option Int
  | [] => some 0
  | c :: cs =>
    if c = 'e' ∨ c = 'E' then
      let (negative, ds) := splitSign cs
      if ds ≠ [] ∧ ds.all Char.isDigit then
        some (if negative then -(ofDigits ds : Int) else ofDigits ds)
      else none
    else none

/-- Reads a decimal with at least one digit before or after the point. -/
def decimal? (cs : List Char) : Option Decimal :=
  let (negative, cs) := splitSign cs
  let (whole, fraction, rest) := splitPoint cs
  if whole = [] ∧ fraction = [] then none
  else (exponent? rest).map fun e =>
    { negative, digits := ofDigits (whole ++ fraction), exponent := e - fraction.length }

def infinity : Float := 1.0 / 0.0

def notANumber : Float := 0.0 / 0.0

/-- A decimal, or one of the words for infinity and not-a-number in any case. -/
def read? (cs : List Char) : Option Float :=
  match decimal? cs with
  | some d => some d.value
  | none =>
    let (negative, word) := splitSign cs
    match String.ofList (word.map Char.toLower) with
    | "inf" | "infinity" => some (if negative then -infinity else infinity)
    | "nan" => some notANumber
    | _ => none

end Toolpath.Number
