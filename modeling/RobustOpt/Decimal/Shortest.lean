import RobustOpt.Binary64

/-!
# Shortest decimals

The fewest decimal digits that read back to a given double, and of those the nearest. A double
stands for all reals that round to it; the search asks, for one digit, two digits and so on,
whether one of the two neighbours of the value on that decimal grid lies in this interval.

## Main definitions

* `Decimal`: a coefficient times a power of ten.
* `Decimal.shortest`: the shortest decimal of `m * 2 ^ e`.
-/

namespace RobustOpt

/-- The number `coefficient * 10 ^ exponent`. -/
structure Decimal where
  coefficient : Nat
  exponent : Int
deriving DecidableEq, Repr

namespace Decimal

def toRat (d : Decimal) : Rat :=
  if 0 ≤ d.exponent then ((d.coefficient * Nat.pow 10 d.exponent.toNat : Nat) : Rat)
  else mkRat d.coefficient (Nat.pow 10 (-d.exponent).toNat)

/-- The digits of a natural number, most significant first. -/
def digits (n : Nat) : List Char := Nat.toDigits 10 n

/-- The power `e` of ten with `10 ^ e ≤ n / d < 10 ^ (e + 1)`, for positive `n` and `d`. -/
def magnitude (n d : Nat) : Int :=
  let e : Int := (digits n).length - (digits d).length
  let reached := if 0 ≤ e then d * Nat.pow 10 e.toNat ≤ n else d ≤ n * Nat.pow 10 (-e).toNat
  if reached then e else e - 1

/-- Remove the trailing zeros of a coefficient; `fuel` bounds their number. -/
def trimZeros : Nat → Decimal → Decimal
  | 0, d => d
  | fuel + 1, d =>
    if d.coefficient ≠ 0 ∧ d.coefficient % 10 = 0 then
      trimZeros fuel ⟨d.coefficient / 10, d.exponent + 1⟩
    else d

/-- The reals that round to a double, as a closed or open interval around its value. -/
structure Interval where
  low : Rat
  value : Rat
  high : Rat
  closed : Bool

/-- The reals that round to `m * 2 ^ e`. Below a power of two the neighbour is half as far. -/
def Interval.ofBinary (m : Nat) (e : Int) : Interval where
  low := if m = Nat.pow 2 52 ∧ -1074 < e then Binary64.scaled (4 * m - 1) (e - 2)
    else Binary64.scaled (2 * m - 1) (e - 1)
  value := Binary64.scaled m e
  high := Binary64.scaled (2 * m + 1) (e - 1)
  closed := m % 2 = 0

def Interval.contains (i : Interval) (x : Rat) : Bool :=
  if i.closed then decide (i.low ≤ x) && decide (x ≤ i.high)
  else decide (i.low < x) && decide (x < i.high)

/-- The decimal of the interval on the grid `10 ^ exponent` that is nearest to its value, a tie
going to the even coefficient. -/
def onGrid (i : Interval) (exponent : Int) : Option Decimal :=
  let unit := Decimal.toRat ⟨1, exponent⟩
  let below := (i.value / unit).floor.toNat
  let lower : Decimal := ⟨below, exponent⟩
  let upper : Decimal := ⟨below + 1, exponent⟩
  match i.contains lower.toRat, i.contains upper.toRat with
  | true, true =>
    let down := i.value - lower.toRat
    let up := upper.toRat - i.value
    if down < up then some lower
    else if up < down then some upper
    else if below % 2 = 0 then some lower else some upper
  | true, false => some lower
  | false, true => some upper
  | false, false => none

/-- Try one digit more until a grid has a hit. -/
def search (i : Interval) (top : Int) : Nat → Nat → Decimal
  | _, 0 => ⟨0, 0⟩
  | count, fuel + 1 =>
    match onGrid i (top - count) with
    | some d => trimZeros 20 d
    | none => search i top (count + 1) fuel

/-- The shortest decimal that reads back to the positive double `m * 2 ^ e`. Seventeen digits
always suffice. -/
def shortest (m : Nat) (e : Int) : Decimal :=
  let i := Interval.ofBinary m e
  search i (magnitude i.value.num.natAbs i.value.den) 0 17

end Decimal

end RobustOpt
