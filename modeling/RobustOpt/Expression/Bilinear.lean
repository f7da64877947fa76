import RobustOpt.Expression.Mixed
import RobustOpt.Sparse.Matrix

/-!
# Bilinear forms

An expression in decision variables `x` and parameters `u` is `[u, 1] · Q · [x, 1]` for a matrix
`Q`. Its last row holds the part without parameters and its last column the part without decision
variables. Fixing `x` leaves an affine function of `u`, fixing `u` one of `x`.

## Main definitions

* `Mixed.coefficientMatrix`: the matrix of an expression.
* `Bilinear.sensitivity`: coefficients of the parameters at fixed decisions.
* `Bilinear.substitute`: coefficients of the decisions at fixed parameters.
* `Bilinear.splitSide`: the parts of a side that a reformulation needs.
-/

namespace RobustOpt

namespace Mixed

variable {α : Type} [Scalar α]

/-- The entries of one coefficient expression in a column: its collected terms, then its constant
in the last row unless it is zero. -/
def columnEntries (parameters column : Nat) (e : Uncertain α) :
    Action (Accumulator α) (Fault α) (List (Nat × Nat × α)) := do
  let items ← e.collectIn
  let terms := items.map fun p => (p.1, column, p.2)
  return if Scalar.isZero e.constant then terms else terms ++ [(parameters, column, e.constant)]

/-- The entries of an expression: a column for each term, then the column without variables. -/
def matrixEntries (e : Mixed α) (parameters decisions : Nat) :
    Action (Accumulator α) (Fault α) (List (Nat × Nat × α)) := do
  let terms ← e.terms.mapM fun t => columnEntries parameters t.1.index t.2
  let constant ← columnEntries parameters decisions e.constant
  return terms.flatten ++ constant

/-- The matrix of an expression for given numbers of parameters and decision variables. It is
refused if a parameter has no row or a variable lies beyond the last column. -/
def coefficientMatrix (e : Mixed α) (parameters decisions : Nat) :
    Except (Fault α) (SparseMatrix α) := do
  let entries ← ((e.matrixEntries parameters decisions).perform (.empty parameters)).1
  if entries.all fun p => p.2.1 ≤ decisions then
    return .ofEntries (parameters + 1) (decisions + 1) entries
  else throw .badValue

end Mixed

namespace Bilinear

variable {α : Type} [Scalar α]

/-- The coefficients of the parameters and the remaining part of `sign * [u, 1] · Q · [x, 1]`, at
the vector `[x, 1]`. -/
def sensitivity (q : SparseMatrix α) (sign : α) (point : List α) : List α × α :=
  let full := (q.mulVec point).map (sign * ·)
  (full.dropLast, full.getLast?.getD 0)

/-- The coefficients of `[x, 1]` in `sign * [u, 1] · Q · [x, 1]`, at parameter values `u`. -/
def substitute (q : SparseMatrix α) (sign : α) (u : List α) : List α :=
  (SparseMatrix.vecMul (u ++ [1]) q).map (sign * ·)

/-- The parts of one side of a constraint: the coefficient of parameter `i` is
`linear[i] · x + offset[i]`, and `certain` holds the coefficients of `[x, 1]` without parameters. -/
structure Side (α : Type) where
  linear : List (List α)
  offset : List α
  certain : List α

/-- Split the dense rows of a bilinear form, times a sign. -/
def splitSide (dense : List (List α)) (sign : α) (parameters : Nat) : Side α :=
  let rows := dense.map (·.map (sign * ·))
  let uncertain := rows.take parameters
  { linear := uncertain.map List.dropLast
    offset := uncertain.map fun row => row.getLast?.getD 0
    certain := rows.getD parameters [] }

/-- The parts of a side, refused if there is no row for the part without parameters. -/
def splitSide? (dense : List (List α)) (sign : α) (parameters : Nat) :
    Except (Fault α) (Side α) :=
  if parameters < dense.length then .ok (splitSide dense sign parameters)
  else .error .indexOutOfRange

/-- Both evaluations of a form, refused if the vectors do not fit its shape. -/
def evaluate? (q : SparseMatrix α) (sign : α) (point u : List α) :
    Except (Fault α) ((List α × α) × List α) :=
  if point.length = q.width ∧ u.length + 1 = q.height then
    .ok (sensitivity q sign point, substitute q sign u)
  else .error .badValue

/-- The parameters with a stored entry in one of the forms, in increasing order. -/
def usedParameters (forms : List (SparseMatrix α)) : List Nat :=
  let height := forms.foldl (fun n q => max n (q.height - 1)) 0
  (List.range height).filter fun i =>
    forms.any fun q => i + 1 < q.height && !(q.rows.getD i []).isEmpty

end Bilinear

end RobustOpt
