import RobustOpt.Model.Workspace
import RobustOpt.Resolution.Protocol
import RobustOpt.Resolution.Settings

/-!
# Solving robust models

The sets of a workspace and the linear part of a model as participants of a resolution.

## Main definitions

* `Environment`: the solvers of a resolution and the share of its constraints a set reformulates.
* `Session`: a workspace with the master of the present solve.
* `Workspace.participants`: the sets and the master of a model.
* `Workspace.run`: resolve a model.
* `Workspace.solve`: resolve a model and keep the result.
* `Workspace.scenario`: the scenario of a constraint in the last result.
-/

namespace RobustOpt

/-- What a resolution takes from outside: the solvers of masters and of adversarial problems, and
which of the constraints it is offered each set undertakes to reformulate. -/
structure Environment (α : Type) where
  master : Solver α
  adversary : Solver α
  portion : Nat → List Nat → List Nat

/-- The solver of the library throughout, and sets that undertake all they are offered. -/
def Environment.standard {α : Type} : Environment α :=
  ⟨.builtin, .builtin, fun _ offered => offered⟩

/-- A workspace with the master of the present solve, once there is one. -/
structure Session (α : Type) where
  space : Workspace α
  master : Option (Master α)

namespace Session

variable {α : Type} [Scalar α]

/-- Run an action of a set. -/
def onSet {β : Type} (id : Nat) (a : Action (UncertaintySet α) (Fault α) β) :
    Action (Session α) (Fault α) β :=
  a.onState (fun s => s.space.uncertaintySet id) fun t s => { s with space := s.space.withSet id t }

/-- The present master. Before the start it is an empty problem. -/
def currentMaster (s : Session α) : Master α := s.master.getD (.ofConstraints .feasibility [])

/-- Run an action of a set on the master. -/
def onBench {β : Type} (id : Nat) (a : Action (UncertaintySet.Bench α) (Fault α) β) :
    Action (Session α) (Fault α) β :=
  a.onState (fun s => ⟨s.space.uncertaintySet id, s.currentMaster, s.space.supply⟩) fun b s =>
    { space := { s.space.withSet id b.set with supply := b.supply }, master := some b.master }

/-- Solve the master and note the values it gives to the variables. -/
def solveMaster (solver : Solver α) : Action (Session α) (Fault α) Status := do
  let s ← get
  let (master, values) ← s.currentMaster.solve s.space.values solver
  set { s with space := { s.space with values }, master := some master }
  return (master.status?).getD .optimal

end Session

namespace Workspace

variable {α : Type} [Scalar α]

/-- The participants of a solve of a model. -/
def participants (w : Workspace α) (model : Model α) (reportScenarios : Bool)
    (prefs : Preferences α) (env : Environment α) :
    Participants α (Session α) Nat (LinearConstraint α) (Option (Scenario α)) where
  count := model.uncertain.length
  owner := model.setFor
  kindName := fun s => (w.uncertaintySet s).kindName
  supports := fun s => (w.uncertaintySet s).supports
  register := fun s i => Session.onSet s (UncertaintySet.register model i prefs)
  setup := fun s => Session.onSet s (UncertaintySet.setup model reportScenarios prefs)
  start := modify fun s => { s with master := some model.master }
  reform := fun s is =>
    Session.onBench s (UncertaintySet.reform model ((env.portion s is).map Int.ofNat))
  solve := Session.solveMaster env.master
  cut := fun s is => do
    let values := (← get).space.values
    Session.onSet s (UncertaintySet.cuts model values (is.map Int.ofNat) env.adversary)
  addCuts := fun cs => modify fun s =>
    { s with master := some (s.currentMaster.addConstraints cs) }
  scenario := fun s is => do
    let values := (← get).space.values
    Session.onSet s (UncertaintySet.scenarios model values (is.map Int.ofNat) env.adversary)

/-- The state of a resolution: session and registrations. -/
abbrev Resolution (α : Type) := Progress (Session α) Nat

/-- Resolve a model. -/
def run (model : Model α) (settings : Settings α) (prefs : Preferences α)
    (env : Environment α := .standard) :
    Action (Resolution α) (Fault α) (SolveResult α) := do
  let report := settings.reportScenarios.isTrue
  let p := (← get).world.space.participants model report prefs env
  let r ← p.resolve settings.rounds report
  let master := (← get).world.currentMaster
  return {
    status := r.rounds.status
    value := master.value?.getD 0
    iterations := r.rounds.iterations
    cuts := r.rounds.cuts
    reformulated := r.reformulated
    scenarios := r.scenarios
    scenariosReported := r.scenariosReported
    constraintCount := master.constraints.length }

/-- Resolve the model with a given name, starting from a workspace. -/
def runModel (w : Workspace α) (id : Nat) (settings : Settings α) (prefs : Preferences α)
    (env : Environment α := .standard) :
    Except (Fault α) (SolveResult α) × Resolution α :=
  (run (w.model id) settings prefs env).perform ⟨⟨w, none⟩, none⟩

/-- Resolve a model and keep the result in it. A failed resolution leaves the last result. -/
def solve (w : Workspace α) (id : Nat) (settings : Settings α) (prefs : Preferences α)
    (env : Environment α := .standard) :
    Except (Fault α) (SolveResult α) × Workspace α :=
  match w.runModel id settings prefs env with
  | (.ok r, s) =>
    let w := s.world.space
    (.ok r, w.withModel { w.model id with result := some r })
  | (.error e, s) => (.error e, s.world.space)

/-- Which constraint a scenario is asked for. -/
inductive Query (α : Type) where
  | index (key : Literal α)
  | constraint (tag : Nat)

/-- The scenario of a constraint in the last result, if that solve reported scenarios. -/
def scenario (w : Workspace α) (id : Nat) (q : Query α) :
    Except (Fault α) (Option (Scenario α)) := do
  let m := w.model id
  match m.result with
  | none => throw .noScenarios
  | some r =>
    if !r.scenariosReported then throw .noScenarios
    let key ← match q with
      | .index key => pure key
      | .constraint tag =>
        match m.uncertain.findIdx? fun c => c.tag == tag with
        | some i => pure (.integer i)
        | none => throw .foreignConstraint
    if !key.isKey then throw .wrongKind
    match r.scenarios.find? fun e => key == .integer e.1 with
    | some e => return e.2
    | none => throw (.noScenario key)

end Workspace

end RobustOpt
