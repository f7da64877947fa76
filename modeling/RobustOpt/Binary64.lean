import RobustOpt.Scalar.Basic

/-!
# Binary floating point

The value of a double is read off its bits, and the double nearest to a rational number is built
from its bits, so that both directions are exact.

## Main definitions

* `Binary64.Value`, `Binary64.decode`: sign, mantissa and exponent of a double.
* `Binary64.toRat?`: the rational value of a finite double.
* `Binary64.nearest`: the double nearest to a rational, a tie going to the even mantissa.
* `Binary64.roundUp`: the least double that is not below a rational.
-/

namespace RobustOpt

namespace Binary64

/-- What a double stands for: `finite s m e` is `± m * 2 ^ e`. -/
inductive Value where
  | undefined
  | infinite (negative : Bool)
  | finite (negative : Bool) (mantissa : Nat) (exponent : Int)
deriving DecidableEq, Repr

/-- Sign, biased exponent and fraction of a bit pattern. -/
def fields (bits : Nat) : Bool × Nat × Nat :=
  (bits / Nat.pow 2 63 % 2 == 1, bits / Nat.pow 2 52 % Nat.pow 2 11, bits % Nat.pow 2 52)

def decode (x : Float) : Value :=
  match fields x.toBits.toNat with
  | (negative, 2047, 0) => .infinite negative
  | (_, 2047, _) => .undefined
  | (negative, 0, fraction) => .finite negative fraction (-1074)
  | (negative, biased, fraction) => .finite negative (Nat.pow 2 52 + fraction) (biased - 1075)

/-- The rational `m * 2 ^ e`. -/
def scaled (m : Nat) (e : Int) : Rat :=
  if 0 ≤ e then ((m * Nat.pow 2 e.toNat : Nat) : Rat) else mkRat m (Nat.pow 2 (-e).toNat)

def toRat? (x : Float) : Option Rat :=
  match decode x with
  | .finite negative m e => some (if negative then -scaled m e else scaled m e)
  | _ => none

/-- `n / d` rounded to the nearest natural number, a tie going to the even one. -/
def roundDiv (n d : Nat) : Nat :=
  let q := n / d
  let r := n % d
  if 2 * r < d then q else if d < 2 * r then q + 1 else if q % 2 = 0 then q else q + 1

/-- `n / (d * 2 ^ e)`, rounded. -/
def roundAt (n d : Nat) (e : Int) : Nat :=
  if 0 ≤ e then roundDiv n (d * Nat.pow 2 e.toNat) else roundDiv (n * Nat.pow 2 (-e).toNat) d

/-- The exponent at which the positive rational `n / d` has a mantissa of 53 bits, or the least
exponent of a double if it has no such exponent. -/
def exponentOf (n d : Nat) : Int :=
  let e : Int := (n.log2 : Int) - d.log2 - 53
  let whole :=
    if 0 ≤ e then n / (d * Nat.pow 2 e.toNat) else n * Nat.pow 2 (-e).toNat / d
  max (if whole < Nat.pow 2 53 then e else e + 1) (-1074)

/-- The bit pattern of the double nearest to the positive rational `n / d`. -/
def nearestBits (n d : Nat) : Nat :=
  let e := exponentOf n d
  let m := roundAt n d e
  let (m, e) := if m = Nat.pow 2 53 then (Nat.pow 2 52, e + 1) else (m, e)
  if m < Nat.pow 2 52 then m
  else if 971 < e then 2047 * Nat.pow 2 52
  else (e + 1075).toNat * Nat.pow 2 52 + (m - Nat.pow 2 52)

/-- The double nearest to a rational number. -/
def nearest (q : Rat) : Float :=
  if q.num = 0 then 0
  else
    let bits := nearestBits q.num.natAbs q.den
    Float.ofBits (UInt64.ofNat (if q.num < 0 then Nat.pow 2 63 + bits else bits))

/-- The least double above a finite one. -/
def next (x : Float) : Float :=
  if x == 0 then Float.ofBits 1
  else if x < 0 then Float.ofBits (x.toBits - 1)
  else Float.ofBits (x.toBits + 1)

/-- The least double that is not below a rational number. -/
def roundUp (q : Rat) : Float :=
  let x := nearest q
  match toRat? x with
  | some r => if r < q then next x else x
  | none => x

end Binary64

instance : Scalar Float where
  zero := 0
  one := 1
  add := Float.add
  sub := Float.sub
  mul := Float.mul
  div := Float.div
  neg := Float.neg
  ofRat := Binary64.nearest
  roundUp := Binary64.roundUp
  toRat? := Binary64.toRat?
  infinity := Float.ofBits 0x7ff0000000000000
  nan := Float.ofBits 0x7ff8000000000000
  lt x y := decide (x < y)
  le x y := decide (x ≤ y)
  eq x y := x == y
  abs := Float.abs

end RobustOpt
