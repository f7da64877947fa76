import RobustOpt.Decimal.Layout

/-!
# Rounded decimals

Numbers written or kept with a fixed precision: so many significant digits, or so many places
after the point. A tie goes to the even neighbour.

## Main definitions

* `Decimal.significant`: a rational rounded to a number of significant digits.
* `Decimal.places`: a rational written with a fixed number of places.
-/

namespace RobustOpt

namespace Decimal

/-- `q` in units of `10 ^ exponent`, rounded. -/
def roundTo (q : Rat) (exponent : Int) : Int :=
  let scaled := q / Decimal.toRat ⟨1, exponent⟩
  let n := Binary64.roundDiv scaled.num.natAbs scaled.den
  if scaled.num < 0 then -n else n

/-- `q` rounded to `count` significant digits. -/
def significant (count : Nat) (q : Rat) : Rat :=
  if q.num = 0 then 0
  else
    let exponent := magnitude q.num.natAbs q.den - count + 1
    (roundTo q exponent : Rat) * Decimal.toRat ⟨1, exponent⟩

/-- `q` written with `count` places after the point; a value that rounds to zero has no sign. -/
def places (count : Nat) (q : Rat) : String :=
  let n := roundTo q (-(count : Int))
  let ds := digits n.natAbs
  let padded := List.replicate (count + 1 - ds.length) '0' ++ ds
  let whole := padded.length - count
  (if n < 0 then "-" else "") ++ String.ofList (padded.take whole) ++ "."
    ++ String.ofList (padded.drop whole)

end Decimal

namespace Binary64

/-- The double nearest to `x` rounded to `count` significant digits, without a negative zero. -/
def significant (count : Nat) (x : Float) : Float :=
  match toRat? x with
  | some q => nearest (Decimal.significant count q)
  | none => x

/-- `x` written with `count` places after the point. -/
def places (count : Nat) (x : Float) : String :=
  match toRat? x with
  | some q => Decimal.places count q
  | none => shown x

end Binary64

end RobustOpt
