import RobustOpt.Scalar.Basic

/-!
# Extended rationals

Exact rational arithmetic with two infinities and an undefined value. Finite operations are
those of `Rat`, so a definition over an arbitrary `Scalar` can be read here as ordinary exact
arithmetic; the special values follow the rules of floating point.

## Main definitions

* `Extended`: a rational number, an infinity or the undefined value.
* `Extended.ofScalar`: the exact value of a scalar.
-/

namespace RobustOpt

inductive Extended where
  | finite (q : Rat)
  | posInf
  | negInf
  | undefined
deriving DecidableEq, Repr

namespace Extended

def neg : Extended → Extended
  | finite q => finite (-q)
  | posInf => negInf
  | negInf => posInf
  | undefined => undefined

def add : Extended → Extended → Extended
  | finite p, finite q => finite (p + q)
  | undefined, _ | _, undefined => undefined
  | posInf, negInf | negInf, posInf => undefined
  | posInf, _ | _, posInf => posInf
  | negInf, _ | _, negInf => negInf

/-- The infinity of the sign of `q`, undefined at zero. -/
def infinityOfSign (q : Rat) : Extended :=
  if 0 < q then posInf else if q < 0 then negInf else undefined

def mul : Extended → Extended → Extended
  | finite p, finite q => finite (p * q)
  | undefined, _ | _, undefined => undefined
  | posInf, finite q | finite q, posInf => infinityOfSign q
  | negInf, finite q | finite q, negInf => neg (infinityOfSign q)
  | posInf, posInf | negInf, negInf => posInf
  | posInf, negInf | negInf, posInf => negInf

def inv : Extended → Extended
  | finite q => if q = 0 then posInf else finite q⁻¹
  | posInf | negInf => finite 0
  | undefined => undefined

def lt : Extended → Extended → Bool
  | finite p, finite q => decide (p < q)
  | undefined, _ | _, undefined => false
  | negInf, finite _ | finite _, posInf | negInf, posInf => true
  | _, _ => false

def eq : Extended → Extended → Bool
  | finite p, finite q => decide (p = q)
  | posInf, posInf | negInf, negInf => true
  | _, _ => false

def abs : Extended → Extended
  | finite q => finite (if q < 0 then -q else q)
  | posInf | negInf => posInf
  | undefined => undefined

def toRat? : Extended → Option Rat
  | finite q => some q
  | _ => none

instance : Scalar Extended where
  zero := finite 0
  one := finite 1
  add := add
  sub x y := add x (neg y)
  mul := mul
  div x y := mul x (inv y)
  neg := neg
  ofRat := finite
  roundUp := finite
  toRat? := toRat?
  infinity := posInf
  nan := undefined
  lt := lt
  le x y := lt x y || eq x y
  eq := eq
  abs := abs

/-- The exact value of a scalar. -/
def ofScalar {α : Type} [Scalar α] (x : α) : Extended :=
  match Scalar.toRat? x with
  | some q => finite q
  | none => if Scalar.isNaN x then undefined else if Scalar.lt 0 x then posInf else negInf

@[simp] theorem finite_add (p q : Rat) : finite p + finite q = finite (p + q) := rfl

@[simp] theorem finite_mul (p q : Rat) : finite p * finite q = finite (p * q) := rfl

@[simp] theorem neg_finite (q : Rat) : -finite q = finite (-q) := rfl

@[simp] theorem toRat?_finite (q : Rat) : Scalar.toRat? (finite q) = some q := rfl

end Extended

end RobustOpt
