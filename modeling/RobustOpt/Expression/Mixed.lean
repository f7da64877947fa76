import RobustOpt.Expression.Uncertain
import RobustOpt.Affine.Constraint

/-!
# Expressions in decision variables

Affine expressions in the decision variables whose coefficients, and whose constant, are affine
expressions in the uncertain parameters.

## Main definitions

* `Mixed`: the expressions, terms kept as they were added.
* `Mixed.add`, `Mixed.scale`, `Mixed.mulUncertain`: the operations.
-/

namespace RobustOpt

structure Mixed (α : Type) where
  terms : List (Decision α × Uncertain α)
  constant : Uncertain α

namespace Mixed

variable {α : Type} [Scalar α]

def ofUncertain (e : Uncertain α) : Mixed α := ⟨[], e⟩

def ofDecision (x : Decision α) : Mixed α := ⟨[(x, .ofConstant 1)], .ofConstant 0⟩

def hasDecisions (e : Mixed α) : Bool := !e.terms.isEmpty

/-- Whether no parameter occurs in any coefficient or in the constant. -/
def isCertain (e : Mixed α) : Bool :=
  e.constant.isConstant && e.terms.all fun t => t.2.isConstant

def add (e f : Mixed α) : Mixed α := ⟨e.terms ++ f.terms, e.constant.add f.constant⟩

def scale (e : Mixed α) (c : α) : Mixed α :=
  ⟨e.terms.map fun t => (t.1, t.2.scale c), e.constant.scale c⟩

def neg (e : Mixed α) : Mixed α := e.scale (-1)

/-- The product with an expression in parameters, refused unless no parameter occurs so far. -/
def mulUncertain (e : Mixed α) (f : Uncertain α) : Except (Fault α) (Mixed α) := do
  if !e.isCertain then throw .uncertainCoefficientProduct
  let terms ← e.terms.mapM fun t => do return (t.1, ← t.2.mul f)
  return ⟨terms, ← e.constant.mul f⟩

/-- The part without parameters as an affine expression, term by term. -/
def toAffine (e : Mixed α) : Affine α :=
  .combination e.constant.constant (e.terms.map fun t => (t.2.constant, t.1.name, t.1.column))

/-- The product of a decision variable with an expression in parameters, as its coefficient. -/
def ofCoefficient (x : Decision α) (e : Uncertain α) : Mixed α := ⟨[(x, e)], .ofConstant 0⟩

end Mixed

/-- A decision variable as an affine expression. -/
def Decision.toAffine {α : Type} (x : Decision α) : Affine α := .column x.name x.column

end RobustOpt
