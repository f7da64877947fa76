import RobustOpt.Decimal.Shortest

/-!
# The written form of numbers

How a decimal is laid out: where positional notation ends, whether a whole number keeps a
fraction, how many digits an exponent has.

## Main definitions

* `Layout`: the choices of a number format.
* `Layout.exact`: the format of coefficients and bounds in messages and certain constraints.
* `Float.shown`, `Float.numeral`: the two written forms of a double.
-/

namespace RobustOpt

/-- The choices of a number format. -/
structure Layout where
  /-- The least power of ten of a leading digit that is written positionally. -/
  positionalFrom : Int
  /-- The first power of ten of a leading digit that is not. -/
  positionalBelow : Int
  /-- Whether a whole number in positional notation ends in `.0`. -/
  keepsFraction : Bool
  /-- The least number of digits of an exponent. -/
  exponentWidth : Nat

namespace Layout

/-- Positional from 0.0001 to below 10 ^ 16, whole numbers with a fraction, exponents of two
digits at least. -/
def exact : Layout := ⟨-4, 16, true, 2⟩

/-- The exponent with its sign, padded with zeros. -/
def exponentText (l : Layout) (e : Int) : String :=
  let ds := Decimal.digits e.natAbs
  (if e < 0 then "-" else "+")
    ++ String.ofList (List.replicate (l.exponentWidth - ds.length) '0' ++ ds)

/-- The written form of a positive decimal. -/
def write (l : Layout) (d : Decimal) : String :=
  let ds := Decimal.digits d.coefficient
  let point : Int := ds.length + d.exponent
  if l.positionalFrom ≤ point - 1 ∧ point - 1 < l.positionalBelow then
    if point ≤ 0 then
      "0." ++ String.ofList (List.replicate (-point).toNat '0' ++ ds)
    else if 0 ≤ d.exponent then
      String.ofList (ds ++ List.replicate d.exponent.toNat '0')
        ++ (if l.keepsFraction then ".0" else "")
    else
      String.ofList (ds.take point.toNat) ++ "." ++ String.ofList (ds.drop point.toNat)
  else
    let rest := ds.drop 1
    String.ofList (ds.take 1) ++ (if rest.isEmpty then "" else "." ++ String.ofList rest)
      ++ "e" ++ l.exponentText (point - 1)

end Layout

namespace Binary64

/-- The shortest text that reads back to a double. -/
def shown (x : Float) : String :=
  match decode x with
  | .undefined => "nan"
  | .infinite negative => if negative then "-inf" else "inf"
  | .finite negative m e =>
    (if negative then "-" else "")
      ++ (if m = 0 then "0.0" else Layout.exact.write (Decimal.shortest m e))

/-- Whole numbers below 10 ^ 15 without a decimal point, other numbers as `shown`. -/
def numeral (x : Float) : String :=
  match toRat? x with
  | some q => if q.den = 1 ∧ q.num.natAbs < Nat.pow 10 15 then toString q.num else shown x
  | none => shown x

end Binary64

end RobustOpt
