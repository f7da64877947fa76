import RobustOpt.Expression.Mixed

/-!
# Constraints with bounds

A constraint bounds an expression from below, from above or both. Constraints on parameters only
describe an uncertainty set; constraints on decisions must hold for every realization of the
parameters in their set.

## Main definitions

* `Bounded`: an expression with its bounds.
* `Bounded.sides`: the one-sided rows `sign * expr ≤ rhs` of a constraint.
* `Uncertain.relate`, `Mixed.relate`: the constraint that compares an expression with zero.
-/

namespace RobustOpt

/-- The three comparisons. -/
inductive Sense where
  | le
  | ge
  | eq
deriving DecidableEq, Repr

namespace Sense

def ofText? : String → Option Sense
  | "<=" => some le
  | ">=" => some ge
  | "==" => some eq
  | _ => none

end Sense

/-- The constraint `lower ≤ expr ≤ upper`. -/
structure Bounded (ε α : Type) where
  expr : ε
  lower : α
  upper : α

/-- A constraint on uncertain parameters only. -/
abbrev SetConstraint (α : Type) := Bounded (Uncertain α) α

/-- A constraint on decisions that has to hold for all parameter values of a set. -/
abbrev UncertainConstraint (α : Type) := Bounded (Mixed α) α

namespace Bounded

variable {ε α : Type} [Scalar α]

/-- The constraint with given bounds, which must not cross and of which one must be finite. -/
def ofBounds (expr : ε) (lower upper : α) : Except (Fault α) (Bounded ε α) :=
  if Scalar.lt upper lower then .error (.crossedConstraint lower upper)
  else if Scalar.isFinite lower || Scalar.isFinite upper then .ok ⟨expr, lower, upper⟩
  else .error .unboundedConstraint

/-- The constraint with bounds given as literals, absent ones being infinite. -/
def build (expr : ε) (lower upper : Literal α) : Except (Fault α) (Bounded ε α) := do
  ofBounds expr (← lower.toBound (-Scalar.infinity)) (← upper.toBound Scalar.infinity)

def isEquality (c : Bounded ε α) : Bool := Scalar.eq c.lower c.upper

/-- The rows `sign * expr ≤ rhs`, one for each finite bound, the upper bound first. -/
def sides (c : Bounded ε α) : List (α × α) :=
  (if Scalar.isFinite c.upper then [(1, c.upper)] else [])
    ++ (if Scalar.isFinite c.lower then [(-1, -c.lower)] else [])

/-- The bounds that compare an expression with `rhs`. -/
def compare (expr : ε) (rhs : α) : Sense → Except (Fault α) (Bounded ε α)
  | .le => ofBounds expr (-Scalar.infinity) rhs
  | .ge => ofBounds expr rhs Scalar.infinity
  | .eq => ofBounds expr rhs rhs

end Bounded

variable {α : Type} [Scalar α]

/-- Compare an expression with zero: its constant moves into the bounds. -/
def Uncertain.relate (e : Uncertain α) (s : Sense) : Except (Fault α) (SetConstraint α) :=
  Bounded.compare e.homogeneous (-e.constant) s

/-- Compare an expression with zero: the number in its constant moves into the bounds. -/
def Mixed.relate (e : Mixed α) (s : Sense) : Except (Fault α) (UncertainConstraint α) :=
  Bounded.compare ⟨e.terms, e.constant.homogeneous⟩ (-e.constant.constant) s

namespace UncertainConstraint

def hasDecisions (c : UncertainConstraint α) : Bool := c.expr.hasDecisions

def isCertain (c : UncertainConstraint α) : Bool := c.expr.isCertain

/-- A constraint without decision variables, read as one on the parameters. -/
def toSetConstraint (c : UncertainConstraint α) : Except (Fault α) (SetConstraint α) :=
  Bounded.ofBounds c.expr.constant c.lower c.upper

/-- The linear constraints of a constraint without parameters. The expression is written out term
by term, zero coefficients included; the lower bound comes first. -/
def toLinear (c : UncertainConstraint α) : List (LinearConstraint α) :=
  let expr := c.expr.toAffine
  if c.isEquality then [.equal expr (.constant c.upper)]
  else
    (if Scalar.isFinite c.lower then [.atMost (.constant c.lower) expr] else [])
      ++ (if Scalar.isFinite c.upper then [.atMost expr (.constant c.upper)] else [])

end UncertainConstraint

/-- The bounds of a decision variable, as linear constraints. -/
def Decision.boundConstraints (x : Decision α) : List (LinearConstraint α) :=
  (if Scalar.isFinite x.lower then [.atMost (.constant x.lower) x.toAffine] else [])
    ++ (if Scalar.isFinite x.upper then [.atMost x.toAffine (.constant x.upper)] else [])

end RobustOpt
