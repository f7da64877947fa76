/-!
# Linear problems

Linear problems over the rationals in finitely many unknowns, some of them nonnegative and some
of them whole numbers, and the three outcomes a problem can have.

## Main definitions

* `LinearProblem`: unknowns, cost to minimize and rows.
* `LinearProblem.Outcome`: an optimum, infeasibility or unboundedness.
* `LinearProblem.Feasible`: the points that satisfy a problem.
-/

namespace RobustOpt

namespace LinearProblem

/-- The row `coefficients · x ≤ bound`, or `= bound`. -/
structure Row where
  coefficients : List Rat
  equality : Bool
  bound : Rat
deriving DecidableEq, Repr

/-- What is required of an unknown. -/
structure Unknown where
  nonneg : Bool
  integer : Bool
deriving DecidableEq, Repr

inductive Outcome where
  | optimal (value : Rat) (point : List Rat)
  | infeasible
  | unbounded
deriving DecidableEq, Repr

/-- The inner product of two lists of rationals. -/
def inner (xs ys : List Rat) : Rat := (List.zipWith (· * ·) xs ys).foldl (· + ·) 0

def Row.Holds (r : Row) (x : List Rat) : Prop :=
  if r.equality then inner r.coefficients x = r.bound else inner r.coefficients x ≤ r.bound

def Unknown.Admits (u : Unknown) (q : Rat) : Prop :=
  (u.nonneg = true → 0 ≤ q) ∧ (u.integer = true → q.den = 1)

end LinearProblem

/-- Minimize `cost · x` over the points that satisfy the rows and the unknowns' requirements. -/
structure LinearProblem where
  unknowns : List LinearProblem.Unknown
  cost : List Rat
  rows : List LinearProblem.Row
deriving DecidableEq, Repr

namespace LinearProblem

/-- The points that satisfy a problem. -/
def Feasible (p : LinearProblem) (x : List Rat) : Prop :=
  x.length = p.unknowns.length ∧ (∀ r ∈ p.rows, r.Holds x)
    ∧ ∀ u ∈ p.unknowns.zip x, u.1.Admits u.2

end LinearProblem

end RobustOpt
