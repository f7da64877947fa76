import RobustOpt.Action
import RobustOpt.Master
import RobustOpt.Resolution.Report
import RobustOpt.UncertaintySet.Phase

/-!
# The protocol of a resolution

The order in which the uncertainty sets and the master take part in a solve, independent of what
they do: constraints are registered to their sets, every set is set up once, the sets reformulate
what they can, the remaining constraints are enforced by rounds of cuts around the master, and
scenarios are collected at an optimum. Sets are visited in the order in which they first received
a constraint.

## Main definitions

* `Participants`: the sets, the master and what each of them does when called.
* `Progress`: the state of the participants with the registrations, once complete.
* `Participants.resolve`: the whole protocol.
-/

namespace RobustOpt

/-- The participants of a resolution: `σ` is the state they share, `κ` names a set, `δ` is a cut
and `τ` a scenario. -/
structure Participants (α σ κ δ τ : Type) where
  /-- The number of uncertain constraints. -/
  count : Nat
  /-- The set responsible for a constraint. -/
  owner : Nat → κ
  kindName : κ → String
  supports : κ → Phase → Bool
  register : κ → Nat → Action σ (Fault α) Unit
  setup : κ → Action σ (Fault α) Unit
  /-- Start a new master. -/
  start : Action σ (Fault α) Unit
  reform : κ → List Nat → Action σ (Fault α) (Literal α)
  solve : Action σ (Fault α) Status
  cut : κ → List Nat → Action σ (Fault α) (List δ)
  addCuts : List δ → Action σ (Fault α) Unit
  scenario : κ → List Nat → Action σ (Fault α) (List τ)

/-- The state of the participants, and the registrations once all of them were made. -/
structure Progress (σ κ : Type) where
  world : σ
  registry : Option (Registry Nat κ)

/-- How the rounds of cuts ended. -/
structure Rounds where
  status : Status
  iterations : Nat
  cuts : Nat
deriving DecidableEq, Repr

/-- What a resolution answers. -/
structure Resolved (τ : Type) where
  rounds : Rounds
  reformulated : Nat
  scenarios : List (Nat × τ)
  scenariosReported : Bool

namespace Participants

variable {α σ κ δ τ : Type} [Scalar α] [BEq κ] (p : Participants α σ κ δ τ)

/-- Refuse a phase that a set does not declare. -/
def require (s : κ) (phase : Phase) : Action σ (Fault α) Unit :=
  if p.supports s phase then pure () else throw (.unsupported (p.kindName s) phase.duty)

/-- Register the constraint at an index to its set. -/
def registerAt (r : Registry Nat κ) (index : Nat) : Action σ (Fault α) (Registry Nat κ) := do
  let s := p.owner index
  p.require s .register
  p.register s index
  match r.register index s with
  | .ok r => return r
  | .error present =>
    throw (.owned (.integer index) (p.kindName present) (p.kindName s))

/-- Register all constraints, in order. -/
def registerAll : Action σ (Fault α) (Registry Nat κ) := do
  let r ← (List.range p.count).foldlM p.registerAt .empty
  let missing := r.missing id p.count
  if !missing.isEmpty then throw (.unregistered missing)
  return r

/-- Set up every set once. -/
def setupAll (r : Registry Nat κ) : Action σ (Fault α) Unit :=
  r.owners.forM fun s => do
    p.require s .setup
    p.setup s

/-- Let a set reformulate its constraints, if it declares this phase. The answer is the number of
constraints it covered and the remaining ones. -/
def reformSet (r : Registry Nat κ) (s : κ) : Action σ (Fault α) (Nat × List Nat) := do
  let indices := r.indices s
  if p.supports s .reform then
    let report ← p.reform s indices
    Report.partition (p.kindName s) report indices
  else return (0, indices)

/-- Let every set reformulate its constraints. The answer is the total number of constraints
covered and what remains of each set. -/
def reformAll (r : Registry Nat κ) : Action σ (Fault α) (Nat × List (κ × List Nat)) := do
  let parts ← r.owners.mapM fun s => do
    let (covered, remaining) ← p.reformSet r s
    return (covered, s, remaining)
  return ((parts.map Prod.fst).foldl (· + ·) 0, parts.map Prod.snd)

/-- One round: the cuts of all sets with remaining constraints, in order. -/
def gatherCuts (remaining : List (κ × List Nat)) : Action σ (Fault α) (List δ) := do
  let found ← remaining.mapM fun (s, indices) =>
    if indices.isEmpty then pure []
    else do
      p.require s .cut
      p.cut s indices
  return found.flatten

/-- Solve the master and add cuts until there are none, the master has no confirmed optimum, or no
round is left. The last argument counts the rounds and cuts so far. -/
def cutLoop (remaining : List (κ × List Nat)) : Nat → Nat → Nat → Action σ (Fault α) Rounds
  | left, iterations, total => do
    let status ← p.solve
    if !status.isConfirmed then return ⟨status, iterations, total⟩
    let cuts ← p.gatherCuts remaining
    if cuts.isEmpty then return ⟨status, iterations, total⟩
    match left with
    | 0 => return ⟨.iterationLimit, iterations, total⟩
    | left + 1 =>
      p.addCuts cuts
      cutLoop remaining left (iterations + 1) (total + cuts.length)

/-- The scenarios of all sets with remaining constraints, one for each constraint. -/
def collectScenarios (remaining : List (κ × List Nat)) :
    Action σ (Fault α) (List (Nat × τ)) := do
  let found ← remaining.mapM fun (s, indices) =>
    if indices.isEmpty then pure []
    else do
      p.require s .scenario
      let scenarios ← p.scenario s indices
      if scenarios.length ≠ indices.length then
        throw (.scenarioCount (p.kindName s) scenarios.length indices.length)
      return indices.zip scenarios
  return found.flatten

/-- Set up the sets, start the master and let the sets reformulate. The answer is that of the
reformulations. -/
def prepare (r : Registry Nat κ) : Action σ (Fault α) (Nat × List (κ × List Nat)) := do
  p.setupAll r
  p.start
  p.reformAll r

/-- What follows the registration. -/
def resolveRegistered (r : Registry Nat κ) (limit : Nat) (reportScenarios : Bool) :
    Action σ (Fault α) (Resolved τ) := do
  let (reformulated, remaining) ← p.prepare r
  let rounds ← p.cutLoop remaining limit 0 0
  let reported := reportScenarios && rounds.status.isConfirmed
  let scenarios ← if reported then p.collectScenarios remaining else pure []
  return ⟨rounds, reformulated, scenarios, reported⟩

/-- Resolve all constraints with at most `limit` rounds of cuts. -/
def resolve (limit : Nat) (reportScenarios : Bool) :
    Action (Progress σ κ) (Fault α) (Resolved τ) := do
  let onWorld {β : Type} (a : Action σ (Fault α) β) : Action (Progress σ κ) (Fault α) β :=
    a.onState Progress.world fun w s => { s with world := w }
  let r ← onWorld p.registerAll
  modify fun s => { s with registry := some r }
  onWorld (p.resolveRegistered r limit reportScenarios)

end Participants

end RobustOpt
