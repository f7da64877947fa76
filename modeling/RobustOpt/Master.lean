import RobustOpt.Affine.Constraint
import RobustOpt.LinearProgram.Solver

/-!
# Master problems

A master problem is an objective with a growing list of linear constraints. Solving it records a
status and a value and gives new values to the columns that occur in the problem.

## Main definitions

* `Status`: how a solve ended.
* `Master`: objective, constraints and the outcome of the last solve.
* `Master.toProblem`: the exact linear problem of a master.
* `Master.solve`: solve with the present constraints.
-/

namespace RobustOpt

inductive Status where
  | optimal
  | optimalInaccurate
  | infeasible
  | infeasibleInaccurate
  | unbounded
  | unboundedInaccurate
  | infeasibleOrUnbounded
  /-- The solver ran into a limit of its own. -/
  | userLimit
  /-- Cuts were still being generated when the rounds ran out. -/
  | iterationLimit
deriving DecidableEq, Repr

namespace Status

def text : Status → String
  | optimal => "optimal"
  | optimalInaccurate => "optimal_inaccurate"
  | infeasible => "infeasible"
  | infeasibleInaccurate => "infeasible_inaccurate"
  | unbounded => "unbounded"
  | unboundedInaccurate => "unbounded_inaccurate"
  | infeasibleOrUnbounded => "infeasible_or_unbounded"
  | userLimit => "user_limit"
  | iterationLimit => "iteration_limit"

/-- The statuses of a confirmed optimum. -/
def confirmed : List Status := [optimal, optimalInaccurate]

def isConfirmed (s : Status) : Bool := confirmed.contains s

end Status

structure Master (α : Type) where
  objective : Objective α
  constraints : List (LinearConstraint α)
  /-- Status and value of the last solve. -/
  outcome : Option (Status × α)

namespace Master

variable {α : Type}

/-- A master that was not solved yet. -/
def ofConstraints (objective : Objective α) (constraints : List (LinearConstraint α)) :
    Master α := ⟨objective, constraints, none⟩

def addConstraints (m : Master α) (cs : List (LinearConstraint α)) : Master α :=
  { m with constraints := m.constraints ++ cs }

@[simp] theorem constraints_addConstraints (m : Master α) (cs : List (LinearConstraint α)) :
    (m.addConstraints cs).constraints = m.constraints ++ cs := rfl

@[simp] theorem outcome_addConstraints (m : Master α) (cs : List (LinearConstraint α)) :
    (m.addConstraints cs).outcome = m.outcome := rfl

def status? (m : Master α) : Option Status := m.outcome.map Prod.fst

def value? (m : Master α) : Option α := m.outcome.map Prod.snd

def isOptimal (m : Master α) : Bool := m.status?.any Status.isConfirmed

/-- The objective and the constraints, a line each. -/
def text (shown : α → String) (m : Master α) : String :=
  String.intercalate "\n" (m.objective.text shown :: "subject to"
    :: m.constraints.map fun c => "  " ++ c.text shown)

variable [Scalar α]

/-- The columns of the objective and the constraints, each once, by creation. -/
def columns (m : Master α) : List Column :=
  Column.inOrder id
    (m.objective.expr.form.columns ++ m.constraints.flatMap LinearConstraint.columns).eraseDups

/-- The rational value of a coefficient, which has to be finite. -/
def rational (x : α) : Except (Fault α) Rat :=
  match Scalar.toRat? x with
  | some q => .ok q
  | none => .error .badValue

/-- The coefficients of a form along a list of columns. -/
def coefficients (columns : List Column) (f : LinearForm α) : Except (Fault α) (List Rat) := do
  let terms ← f.terms.mapM fun t => do return (t.1, ← rational t.2)
  return columns.map fun c => (terms.filter fun t => t.1 == c).foldl (fun q t => q + t.2) 0

/-- The row that requires a form to be at most zero, or zero, along a list of columns. -/
def problemRow (columns : List Column) (relation : Relation) (f : LinearForm α) :
    Except (Fault α) LinearProblem.Row := do
  return ⟨← coefficients columns f, relation == .equal, -(← rational f.constant)⟩

/-- The rows of a constraint along a list of columns. -/
def problemRows (columns : List Column) (c : LinearConstraint α) :
    Except (Fault α) (List LinearProblem.Row) :=
  c.rows.mapM (problemRow columns c.relation)

/-- The linear problem of a master, over its columns. -/
def toProblem (m : Master α) : Except (Fault α) LinearProblem := do
  let columns := m.columns
  let cost ← coefficients columns m.objective.expr.form
  let rows ← m.constraints.mapM (problemRows columns)
  return {
    unknowns := columns.map fun c => ⟨c.nonneg, c.integer⟩
    cost := cost.map (m.objective.direction.factor * ·)
    rows := rows.flatten }

/-- The values of the columns of a problem after it was solved, rounded upwards; other columns keep
theirs. -/
def assign (columns : List Column) (point : Option (List Rat)) (values : Valuation α) :
    Valuation α := fun c =>
  match columns.findIdx? (· == c) with
  | some i => point.map fun x => Scalar.roundUp (x.getD i 0)
  | none => values c

/-- The infinite value of an objective that is attained nowhere, or everywhere exceeded. -/
def extreme (direction : Direction) (bounded : Bool) : α :=
  match direction, bounded with
  | .minimize, true | .maximize, false => Scalar.infinity
  | _, _ => -Scalar.infinity

/-- Solve the problem with the present constraints. Unless an optimum was found, the columns of
the problem lose their values. -/
def solve (m : Master α) (values : Valuation α) (solver : Solver α := .builtin) :
    Except (Fault α) (Master α × Valuation α) := do
  let problem ← m.toProblem
  let columns := m.columns
  let direction := m.objective.direction
  match ← solver problem with
  | .optimal value x =>
    let constant ← rational m.objective.expr.form.constant
    let attained := Scalar.ofRat (direction.factor * value + constant)
    return ({ m with outcome := some (.optimal, attained) }, assign columns (some x) values)
  | .infeasible =>
    return ({ m with outcome := some (.infeasible, extreme direction true) },
      assign columns none values)
  | .unbounded =>
    return ({ m with outcome := some (.unbounded, extreme direction false) },
      assign columns none values)

end Master

end RobustOpt
