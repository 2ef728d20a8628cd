/-!
# Shortest decimals

A finite nonzero binary64 value `m * 2 ^ q` is the nearest double to every real in an interval
around it. This module finds the decimal with the fewest digits in that interval, and among those
the one closest to the value.
-/

namespace Toolpath.Number

/-- The rule for two decimals of the same length that lie equally far from the value. -/
inductive Tie where
  | up
  | even
  deriving DecidableEq, Repr

/-- The decimal `digits * 10 ^ exponent`. -/
structure Scaled where
  digits : Nat
  exponent : Int
  deriving DecidableEq, Repr

/-- The reals that round to `m * 2 ^ q`, in quarters of its last place: `scale` is the exponent
of a quarter, and the ends belong to the interval exactly when `m` is even. -/
structure Interval where
  low : Nat
  mid : Nat
  high : Nat
  scale : Int
  closed : Bool

/-- Below a power of two the neighbour is half as far away, except among the subnormal values. -/
def Interval.around (m : Nat) (q : Int) : Interval :=
  let gap := if m = Nat.pow 2 52 ∧ -1074 < q then 1 else 2
  { low := 4 * m - gap, mid := 4 * m, high := 4 * m + 2, scale := q - 2, closed := m % 2 == 0 }

/-- The best multiple of `10 ^ k` inside the interval, if there is one. It is one of the two
multiples next to the value. -/
def Interval.onGrid? (i : Interval) (tie : Tie) (k : Int) : Option Nat :=
  let factor := Nat.pow 2 i.scale.toNat * Nat.pow 10 (-k).toNat
  let unit := Nat.pow 2 (-i.scale).toNat * Nat.pow 10 k.toNat
  let inside := fun d =>
    if i.closed then i.low * factor ≤ d * unit ∧ d * unit ≤ i.high * factor
    else i.low * factor < d * unit ∧ d * unit < i.high * factor
  let below := i.mid * factor / unit
  let above := below + 1
  if inside below then
    if inside above then
      let half := (below + above) * unit
      let value := 2 * i.mid * factor
      if value < half then some below
      else if half < value then some above
      else match tie with
        | .up => some above
        | .even => some (if below % 2 = 0 then below else above)
    else some below
  else if inside above then some above
  else none

/-- Tries ever finer powers of ten. The last grid is finer than the interval. -/
def Interval.search (i : Interval) (tie : Tie) : Nat → Int → Scaled
  | 0, k =>
    let factor := Nat.pow 2 i.scale.toNat * Nat.pow 10 (-k).toNat
    let unit := Nat.pow 2 (-i.scale).toNat * Nat.pow 10 k.toNat
    { digits := i.mid * factor / unit, exponent := k }
  | n + 1, k =>
    match i.onGrid? tie k with
    | some d => { digits := d, exponent := k }
    | none => i.search tie n (k - 1)

/-- Drops the zeros at the end of the digits. At most `fuel` of them are dropped. -/
def Scaled.trim : Nat → Scaled → Scaled
  | 0, s => s
  | n + 1, s =>
    if s.digits ≠ 0 ∧ s.digits % 10 = 0 then
      trim n { digits := s.digits / 10, exponent := s.exponent + 1 }
    else s

/-- The shortest decimal that rounds to `m * 2 ^ q`. The search starts one power of ten above
the value, and seventeen digits are always enough. -/
def shortest (tie : Tie) (m : Nat) (q : Int) : Scaled :=
  let top := (Nat.log2 m + q) * 30103 / 100000 + 1
  (Scaled.trim 20) ((Interval.around m q).search tie 20 top)

end Toolpath.Number
