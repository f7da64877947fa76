/-!
# Scalars

Every quantity of the library (coefficient, bound, solution value) is a *scalar*: a number
system with the field operations, Boolean comparisons, an infinity and a not-a-number value.
The program runs on binary floating point; the theory instantiates the same definitions at
exact rationals extended by the special values.

## Main definitions

* `Scalar`: the operations a number system has to offer.
* `Scalar.isFinite`, `Scalar.isNaN`, `Scalar.sign`: derived tests.
* `Scalar.zeroTol`, `Scalar.displayTol`, `Scalar.cutTol`: the tolerances of the library.
-/

namespace RobustOpt

/-- A number system. Comparisons answer `false` whenever one side is not a number. -/
class Scalar (α : Type) extends Zero α, One α, Add α, Sub α, Mul α, Div α, Neg α where
  /-- The scalar nearest to a rational number. -/
  ofRat : Rat → α
  /-- The least scalar that is not below a rational number. -/
  roundUp : Rat → α
  /-- The rational value of a finite scalar. -/
  toRat? : α → Option Rat
  infinity : α
  nan : α
  lt : α → α → Bool
  le : α → α → Bool
  eq : α → α → Bool
  abs : α → α

namespace Scalar

variable {α : Type} [Scalar α]

def isFinite (x : α) : Bool := (toRat? x).isSome

def isNaN (x : α) : Bool := !eq x x

def isZero (x : α) : Bool := eq x 0

/-- Accumulated coefficients below this magnitude are treated as absent. -/
def zeroTol : α := ofRat (mkRat 1 (Nat.pow 10 20))

/-- The value a coefficient takes when its contributions cancel exactly. It is negligible, but
not zero, so that the coefficient stays registered. -/
def cancelled : α := ofRat (mkRat 1 (Nat.pow 10 50))

/-- Constants below this magnitude are not printed. -/
def displayTol : α := ofRat (mkRat 1 (Nat.pow 10 6))

/-- The default violation above which a constraint is cut off. -/
def cutTol : α := ofRat (mkRat 1 (Nat.pow 10 6))

/-- The scalar an infinity is replaced by where a finite value is needed. -/
def largest : α := ofRat ((Nat.pow 2 1024 - Nat.pow 2 971 : Nat) : Rat)

/-- A coefficient too small to count. -/
def negligible (x : α) : Bool := !le zeroTol (abs x)

/-- One, minus one or zero, by the sign of `x`. -/
def sign (x : α) : α :=
  if lt 0 x then 1 else if lt x 0 then -1 else if isNaN x then nan else 0

/-- The first argument unless the second one is smaller. -/
def min (x y : α) : α := if lt y x then y else x

def half (x : α) : α := x / ofRat 2

/-- Undefined entries become zero and infinite ones the largest scalar of their sign. -/
def toFinite (x : α) : α :=
  if isNaN x then 0 else if isFinite x then x else if lt 0 x then largest else -largest

/-- The sum of a list, from the left, starting at zero. -/
def sum (xs : List α) : α := xs.foldl (· + ·) 0

/-- The inner product of two lists, summed from the left. -/
def dot (xs ys : List α) : α := sum (List.zipWith (· * ·) xs ys)

end Scalar

end RobustOpt
