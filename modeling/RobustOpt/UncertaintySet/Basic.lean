import RobustOpt.UncertaintySet.Phase
import RobustOpt.UncertaintySet.Polyhedral
import RobustOpt.UncertaintySet.Scripted

/-!
# Uncertainty sets

The kinds of uncertainty sets and their part in each phase of a resolution. A set changes its own
state only; a failing phase keeps what it changed before it failed.

## Main definitions

* `UncertaintySet`: polyhedral sets, budget sets, bare sets without any phase, scripted sets.
* `UncertaintySet.supports`: whether a set declares a phase.
* `UncertaintySet.addSetConstraint`: constrain the parameters of a set.
* `UncertaintySet.register`, `setup`, `reform`, `cuts`, `scenarios`, `worstCase`: the phases.
-/

namespace RobustOpt

inductive UncertaintySet (α : Type) where
  | polyhedral (plane : CuttingPlane α) (data : Polyhedral α)
  | budget (plane : CuttingPlane α) (data : Budget α)
  /-- Declares phases but implements none. -/
  | bare (phases : List Phase)
  | scripted (phases : List Phase) (data : Scripted α)

namespace UncertaintySet

variable {α : Type}

def newScripted (phases : List Phase) (script : Script α) : UncertaintySet α :=
  scripted phases ⟨script, []⟩

/-- The name of the kind of a set in messages. -/
def kindName : UncertaintySet α → String
  | polyhedral _ _ => "BasicUncertaintySet"
  | budget _ _ => "BudgetUncertaintySet"
  | bare _ => "BareSet"
  | scripted _ _ => "ScriptedSet"

/-- The phases a set declares. -/
def phases : UncertaintySet α → List Phase
  | polyhedral _ _ | budget _ _ => Phase.all
  | bare ps | scripted ps _ => Phase.all.filter ps.contains

def supports (s : UncertaintySet α) (p : Phase) : Bool := s.phases.contains p

@[simp] theorem supports_polyhedral (c : CuttingPlane α) (d : Polyhedral α) (p : Phase) :
    (polyhedral c d).supports p = true := by
  simp [supports, phases, Phase.mem_all]

@[simp] theorem supports_budget (c : CuttingPlane α) (d : Budget α) (p : Phase) :
    (budget c d).supports p = true := by
  simp [supports, phases, Phase.mem_all]

@[simp] theorem supports_bare (ps : List Phase) (p : Phase) :
    (bare ps : UncertaintySet α).supports p = ps.contains p := by
  simp [supports, phases, Phase.mem_all]

variable [Scalar α]

def newPolyhedral : UncertaintySet α := polyhedral .new .new

def newBudget (b : Budget α) : UncertaintySet α := budget .new b

/-- The constraints on the parameters of a set. -/
def setConstraints : UncertaintySet α → List (SetConstraint α)
  | polyhedral _ d => d.constraints
  | _ => []

/-- The cutting-plane state of a set that has one. -/
def plane? : UncertaintySet α → Option (CuttingPlane α)
  | polyhedral c _ | budget c _ => some c
  | _ => none

/-- The fault of a phase that a set does not implement. -/
def unsupported (s : UncertaintySet α) (task : String) : Fault α := .unsupported s.kindName task

/-- Constrain the parameters of a set. Only polyhedral sets accept this. -/
def addSetConstraint (s : UncertaintySet α) (c : SetConstraint α) :
    Except (Fault α) (UncertaintySet α) :=
  match s with
  | polyhedral plane d => .ok (polyhedral plane { d with constraints := d.constraints ++ [c] })
  | _ => .error (s.unsupported "adding constraints on uncertain parameters")

/-- Add a constraint without decision variables, read as one on the parameters. -/
def addUncertainConstraint (s : UncertaintySet α) (c : UncertainConstraint α) :
    Except (Fault α) (UncertaintySet α) := do
  if c.hasDecisions then throw (.decisionsInSetConstraint s.kindName)
  s.addSetConstraint (← c.toSetConstraint)

/-- Take responsibility for an uncertain constraint of a model, which must have decision
variables. -/
def register (model : Model α) (index : Int) (prefs : Preferences α) :
    Action (UncertaintySet α) (Fault α) Unit := do
  match ← get with
  | polyhedral plane d => set (polyhedral (← claim plane) d)
  | budget plane d => set (budget (← claim plane) d)
  | s@(bare _) => throw (s.unsupported Phase.register.duty)
  | scripted ps d => set (scripted ps (d.record (.register index prefs.sortedKeys)))
where
  /-- Note the index, if the constraint has decision variables. -/
  claim (plane : CuttingPlane α) : Action (UncertaintySet α) (Fault α) (CuttingPlane α) := do
    let c ← model.constraint? index
    if !c.hasDecisions then throw (.noDecisions index (← get).kindName)
    return plane.register model.id index

/-- Prepare for a solve of a model, after all registrations. -/
def setup (model : Model α) (scenariosRequested : Bool) (prefs : Preferences α) :
    Action (UncertaintySet α) (Fault α) Unit := do
  match ← get with
  | polyhedral plane d =>
    let plane := plane.prefer prefs
    set (polyhedral plane d)
    let plane := { plane with forms := ← plane.formsOf model }
    set (polyhedral plane d)
    (Polyhedral.setup model prefs plane.preferCuts.isTrue).onState (fun _ => d)
      (fun d _ => polyhedral plane d)
  | budget plane d =>
    let plane := plane.prefer prefs
    set (budget plane d)
    let plane := { plane with forms := ← plane.formsOf model }
    set (budget plane d)
    (Budget.setup (budget plane d).kindName model (plane.forms.map Prod.snd)).onState (fun _ => d)
      (fun d _ => budget plane d)
  | s@(bare _) => throw (s.unsupported Phase.setup.duty)
  | scripted ps d => set (scripted ps (d.record (.setup scenariosRequested)))

/-- A set together with the master it works on. -/
structure Bench (α : Type) where
  set : UncertaintySet α
  master : Master α
  supply : Supply

/-- Run a reformulation on the master of a bench. -/
def onMaster {β : Type} (a : Action (Master α × Supply) (Fault α) β) :
    Action (Bench α) (Fault α) β :=
  a.onState (fun b => (b.master, b.supply)) fun t b => { b with master := t.1, supply := t.2 }

/-- The indices as a report. -/
def reportOf (indices : List Int) : Literal α := .list (indices.map .integer)

/-- Add deterministic equivalents of constraints to the master and report which were covered. -/
def reform (model : Model α) (indices : List Int) :
    Action (Bench α) (Fault α) (Literal α) := do
  match (← get).set with
  | polyhedral plane d =>
    if plane.preferCuts.isTrue then return .list []
    onMaster (plane.reform d.geometry model indices)
    return reportOf indices
  | budget plane d =>
    if plane.preferCuts.isTrue then return .list []
    onMaster (plane.reform d.geometry model indices)
    return reportOf indices
  | s@(bare _) => throw (s.unsupported Phase.reform.duty)
  | scripted ps d =>
    let d := d.record (.reform indices)
    modify fun b => { b with set := scripted ps d }
    onMaster (d.reform model)

/-- Cuts that exclude the present values of the decision variables. -/
def cuts (model : Model α) (values : Valuation α) (indices : List Int)
    (solver : Solver α := .builtin) :
    Action (UncertaintySet α) (Fault α) (List (LinearConstraint α)) := do
  match ← get with
  | polyhedral plane d => plane.cuts (d.geometry solver) model (model.point values) indices
  | budget plane d => plane.cuts d.geometry model (model.point values) indices
  | s@(bare _) => throw (s.unsupported Phase.cut.duty)
  | scripted ps d =>
    let d := d.record (.cut indices)
    set (scripted ps d)
    d.cuts model

/-- Scenarios that leave the least slack at the present values of the decision variables. -/
def scenarios (model : Model α) (values : Valuation α) (indices : List Int)
    (solver : Solver α := .builtin) :
    Action (UncertaintySet α) (Fault α) (List (Option (Scenario α))) := do
  match ← get with
  | polyhedral plane d =>
    return (← plane.scenarios (d.geometry solver) model (model.point values) indices).map some
  | budget plane d =>
    return (← plane.scenarios d.geometry model (model.point values) indices).map some
  | s@(bare _) => throw (s.unsupported Phase.scenario.duty)
  | scripted ps d =>
    let d := d.record (.scenario indices)
    set (scripted ps d)
    d.scenarios indices

/-- The worst case of a linear function over a set. -/
def worstCase (s : UncertaintySet α) (g : List α) (solver : Solver α := .builtin) :
    Except (Fault α) (List α) :=
  match s with
  | polyhedral _ d => d.worstCase g solver
  | budget _ d => d.worstCase g
  | bare _ | scripted _ _ => .error .missingAttribute

end UncertaintySet

end RobustOpt
