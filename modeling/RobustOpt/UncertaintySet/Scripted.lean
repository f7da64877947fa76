import RobustOpt.UncertaintySet.Budget

/-!
# Scripted sets

Sets that answer every phase from a script and keep a log of the calls they receive. They serve
to rehearse the protocol of a resolution: constraints they add bound the first decision variable
of the model from above.

## Main definitions

* `Script`: the prescribed answers.
* `Call`: an entry of the log.
* `Scripted.reform`, `Scripted.cuts`, `Scripted.scenarios`: the phases.
-/

namespace RobustOpt

structure Script (α : Type) where
  /-- What the reformulation reports. -/
  report : Literal α
  /-- Bounds added to the master by the reformulation. -/
  reformBounds : List (Literal α)
  /-- Bounds returned as cuts, call by call. -/
  cutBounds : List (List (Literal α))
  /-- Bounds returned as cuts once the calls above are used up. -/
  laterCutBounds : List (Literal α)
  /-- The scenarios returned; by default none is known for any constraint. -/
  scenarios : Option (List (Literal α))

/-- A call received by a scripted set. -/
inductive Call where
  | register (index : Int) (preferences : List String)
  | setup (scenariosRequested : Bool)
  | reform (indices : List Int)
  | cut (indices : List Int)
  | scenario (indices : List Int)
deriving DecidableEq, Repr

structure Scripted (α : Type) where
  script : Script α
  log : List Call

namespace Scripted

variable {α : Type} [Scalar α]

def record (s : Scripted α) (c : Call) : Scripted α := { s with log := s.log ++ [c] }

/-- The constraint that bounds the first decision variable of a model. -/
def boundFirst (model : Model α) (bound : Literal α) : Except (Fault α) (LinearConstraint α) :=
  match model.decisions with
  | [] => .error .indexOutOfRange
  | x :: _ => do return .atMost x.toAffine (.constant (← bound.toScalar))

/-- Add one bound to the master. -/
def addBound (model : Model α) (bound : Literal α) :
    Action (Master α × Supply) (Fault α) Unit := do
  let c ← boundFirst model bound
  modify fun t => (t.1.addConstraints [c], t.2)

/-- Add the scripted bounds to the master, one after the other, and answer the script's report. -/
def reform (s : Scripted α) (model : Model α) :
    Action (Master α × Supply) (Fault α) (Literal α) := do
  s.script.reformBounds.forM (addBound model)
  return s.script.report

/-- The cuts of the present call, which is in the log already. -/
def cuts (s : Scripted α) (model : Model α) : Except (Fault α) (List (LinearConstraint α)) :=
  let calls := (s.log.filter fun c => match c with
    | .cut _ => true
    | _ => false).length
  ((s.script.cutBounds[calls - 1]?).getD s.script.laterCutBounds).mapM (boundFirst model)

/-- A scenario of the script, if one is given. -/
def scenarioOf : Literal α → Except (Fault α) (Option (Scenario α))
  | .absent => .ok none
  | v => do return some (← Grid.ofLiteral v).entries

def scenarios (s : Scripted α) (indices : List Int) :
    Except (Fault α) (List (Option (Scenario α))) :=
  match s.script.scenarios with
  | some vs => vs.mapM scenarioOf
  | none => .ok (indices.map fun _ => none)

end Scripted

end RobustOpt
