import RobustOpt.Constraint
import RobustOpt.Master
import RobustOpt.Position

/-!
# Robust models

Decision variables, uncertain parameters, linear constraints, and uncertain constraints that must
hold for every realization of the parameters in the set responsible for them.

## Main definitions

* `Model`: the tables of a model.
* `Model.setFor`, `Model.sets`: the sets responsible for the uncertain constraints.
* `Model.master`: the linear part of a model, to which sets add reformulations and cuts.
* `SolveResult`: the outcome of a solve.
-/

namespace RobustOpt

/-- An uncertain constraint with a tag that tells it from every other one. -/
structure Posed (α : Type) where
  tag : Nat
  constraint : UncertainConstraint α

/-- Values of the parameters, by position; a parameter the set does not specify is undefined. -/
abbrev Scenario (α : Type) := List α

/-- The value at an index of a scenario; negative indices count from the end. -/
def Scenario.value {α : Type} (s : Scenario α) (index : Int) : Except (Fault α) α :=
  match (Position.find? s.length index).bind (s[·]?) with
  | some x => .ok x
  | none => .error .indexOutOfRange

structure SolveResult (α : Type) where
  status : Status
  value : α
  /-- The number of rounds of cuts. -/
  iterations : Nat
  cuts : Nat
  reformulated : Nat
  /-- The scenarios by constraint, in the order in which they were collected. -/
  scenarios : List (Nat × Option (Scenario α))
  scenariosReported : Bool
  constraintCount : Nat

namespace SolveResult

variable {α : Type}

/-- The warning of a solve whose rounds ran out. -/
def warnings (r : SolveResult α) : List String :=
  if r.status = .iterationLimit then
    [s!"Cuts were still being generated after {r.iterations} iterations. The solution may not "
      ++ "be robust feasible. Increase max_iter to keep iterating."]
  else []

end SolveResult

structure Model (α : Type) where
  id : Nat
  defaultSet : Nat
  decisions : List (Decision α)
  parameters : List (Parameter α)
  certain : List (LinearConstraint α)
  uncertain : List (Posed α)
  /-- The sets given explicitly, by constraint. -/
  assignment : List (Nat × Nat)
  objective : Objective α
  result : Option (SolveResult α)

namespace Model

variable {α : Type}

/-- A model without variables and constraints. -/
def new [Scalar α] (id defaultSet : Nat) : Model α :=
  ⟨id, defaultSet, [], [], [], [], [], .feasibility, none⟩

/-- The set responsible for an uncertain constraint. -/
def setFor (m : Model α) (index : Nat) : Nat :=
  ((m.assignment.find? fun e => e.1 == index).map Prod.snd).getD m.defaultSet

/-- The default set, then the sets given explicitly, each once. -/
def sets (m : Model α) : List Nat := (m.defaultSet :: m.assignment.map Prod.snd).eraseDups

/-- The uncertain constraint at an index; negative indices count from the end. -/
def constraint? (m : Model α) (index : Int) : Except (Fault α) (UncertainConstraint α) :=
  match (Position.find? m.uncertain.length index).bind (m.uncertain[·]?) with
  | some p => .ok p.constraint
  | none => .error .indexOutOfRange

/-- Lower and upper bounds of the parameters. -/
def parameterBounds (m : Model α) : List α × List α :=
  (m.parameters.map Parameter.lower, m.parameters.map Parameter.upper)

/-- The present values of the decision variables with a trailing one. Variables without a value
are taken at zero. -/
def point [Scalar α] (m : Model α) (values : Valuation α) : List α :=
  (m.decisions.map fun x => (values x.column).getD 0) ++ [1]

/-- The linear constraints and the bounds of the variables, under the objective. -/
def master [Scalar α] (m : Model α) : Master α :=
  .ofConstraints m.objective (m.certain ++ m.decisions.flatMap Decision.boundConstraints)

end Model

end RobustOpt
