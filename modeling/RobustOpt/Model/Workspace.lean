import RobustOpt.Display
import RobustOpt.UncertaintySet.Basic

/-!
# Workspaces

Models and uncertainty sets live side by side: several models may share a set, and the values of
decision variables outlast a solve. A workspace holds all of them and names them by position.

## Main definitions

* `Workspace`: models, sets, values and the supply of new variables.
* `Workspace.addDecision`, `Workspace.addParameter`: extend the tables of a model.
* `Workspace.pose`: route a constraint to the place that deals with it.
-/

namespace RobustOpt

structure Workspace (α : Type) where
  models : List (Model α)
  sets : List (UncertaintySet α)
  values : Valuation α
  supply : Supply

namespace Workspace

variable {α : Type} [Scalar α]

def empty : Workspace α := ⟨[], [], fun _ => none, ⟨0, 0⟩⟩

def addSet (w : Workspace α) (s : UncertaintySet α) : Nat × Workspace α :=
  (w.sets.length, { w with sets := w.sets ++ [s] })

/-- A new model over a given set, or over a new polyhedral set. -/
def addModel (w : Workspace α) (given : Option Nat) : Nat × Workspace α :=
  let (set, w) := match given with
    | some s => (s, w)
    | none => w.addSet .newPolyhedral
  (w.models.length, { w with models := w.models ++ [Model.new w.models.length set] })

/-- The model with a given name; there is one for every name that was handed out. -/
def model (w : Workspace α) (id : Nat) : Model α := (w.models[id]?).getD (.new id 0)

/-- The set with a given name; there is one for every name that was handed out. -/
def uncertaintySet (w : Workspace α) (id : Nat) : UncertaintySet α := (w.sets[id]?).getD (.bare [])

def withModel (w : Workspace α) (m : Model α) : Workspace α :=
  { w with models := w.models.set m.id m }

def withSet (w : Workspace α) (id : Nat) (s : UncertaintySet α) : Workspace α :=
  { w with sets := w.sets.set id s }

/-- A literal name, or a letter with the position if there is none. -/
def nameOr (letter : String) (index : Nat) : Literal α → Literal α
  | .absent => .text (letter ++ toString index)
  | name => name

/-- Add a decision variable to a model. Its name has to be a text; this is checked after its
bounds. -/
def addDecision (w : Workspace α) (id : Nat) (name lower upper : Literal α) (integer : Bool) :
    Except (Fault α) (Decision α × Workspace α) := do
  let m := w.model id
  let index := m.decisions.length
  let name := nameOr "x" index name
  let (lb, ub) ← checkBounds name lower upper
  match name with
  | .text label =>
    let column : Column := ⟨w.supply.serial, none, .decision index, false, integer⟩
    let x : Decision α := ⟨id, index, label, lb, ub, column⟩
    let w := w.withModel { m with decisions := m.decisions ++ [x] }
    return (x, { w with supply := { w.supply with serial := w.supply.serial + 1 } })
  | _ => throw .wrongKind

/-- Add an uncertain parameter to a model. -/
def addParameter (w : Workspace α) (id : Nat) (name lower upper : Literal α) :
    Except (Fault α) (Parameter α × Workspace α) := do
  let m := w.model id
  let index := m.parameters.length
  let name := nameOr "u" index name
  let (lb, ub) ← checkBounds name lower upper
  let u : Parameter α := ⟨id, index, name, lb, ub⟩
  return (u, w.withModel { m with parameters := m.parameters ++ [u] })

/-- Add a linear constraint to a model. -/
def addLinear (w : Workspace α) (id : Nat) (c : LinearConstraint α) : Workspace α :=
  let m := w.model id
  w.withModel { m with certain := m.certain ++ [c] }

/-- Constrain the parameters of a set. -/
def addSetConstraint (w : Workspace α) (set : Nat) (c : SetConstraint α) :
    Except (Fault α) (Workspace α) := do
  return w.withSet set (← (w.uncertaintySet set).addSetConstraint c)

/-- Constrain the parameters of a set by a constraint without decision variables. -/
def addUncertainToSet (w : Workspace α) (set : Nat) (c : UncertainConstraint α) :
    Except (Fault α) (Workspace α) := do
  return w.withSet set (← (w.uncertaintySet set).addUncertainConstraint c)

/-- Append to the uncertain constraints of a model; the answer is the position. -/
def appendUncertain (w : Workspace α) (id : Nat) (c : Posed α) (given : Option Nat) :
    Nat × Workspace α :=
  let m := w.model id
  let index := m.uncertain.length
  let assignment := match given with
    | some s => m.assignment ++ [(index, s)]
    | none => m.assignment
  (index, w.withModel { m with uncertain := m.uncertain ++ [c], assignment })

/-- Route a constraint: one without decision variables constrains the parameters of the set, one
without parameters becomes linear constraints, and any other one is an uncertain constraint of the
model, whose position is answered. -/
def pose (w : Workspace α) (id : Nat) (c : Posed α) (given : Option Nat) :
    Except (Fault α) (Option Nat × Workspace α) := do
  let m := w.model id
  if !c.constraint.hasDecisions then
    return (none, ← w.addUncertainToSet (given.getD m.defaultSet) c.constraint)
  else if c.constraint.isCertain then
    return (none, w.withModel { m with certain := m.certain ++ c.constraint.toLinear })
  else
    let (index, w) := w.appendUncertain id c given
    return (some index, w)

def setObjective (w : Workspace α) (id : Nat) (objective : Objective α) : Workspace α :=
  w.withModel { w.model id with objective }

/-- The objective of an expression without parameters. -/
def objectiveOf (direction : Direction) (e : Mixed α) : Except (Fault α) (Objective α) :=
  if e.isCertain then .ok ⟨direction, e.toAffine⟩ else .error .uncertainObjective

/-- The present value of a decision variable. -/
def value? (w : Workspace α) (x : Decision α) : Option α := w.values x.column

/-- Whether a decision variable can take a value: it has to be finite, and that of an integer
variable has to be whole up to ten decimal places. -/
def admits (x : Decision α) (value : α) : Bool :=
  match Scalar.toRat? value with
  | none => false
  | some q =>
    let gap := mkRat 1 (Nat.pow 10 10)
    !x.column.integer || q - q.floor ≤ gap || (q.ceil : Rat) - q ≤ gap

/-- Give a decision variable a value, which it has to admit, or none. -/
def assign (w : Workspace α) (x : Decision α) (value : Option α) :
    Except (Fault α) (Workspace α) :=
  if value.all (admits x) then
    .ok { w with values := fun c => if c = x.column then value else w.values c }
  else .error .badValue

/-- The written form of a model: its linear part, the uncertain constraints, the constraints of
its sets and the bounds of the parameters. -/
def renderModel (shown numeral : α → String) (w : Workspace α) (id : Nat) : String :=
  let m := w.model id
  String.intercalate "\n" (m.master.text shown :: "Uncertain constraints:"
    :: m.uncertain.map (fun c => renderUncertainConstraint shown numeral c.constraint)
    ++ "Uncertainty set:"
    :: m.sets.flatMap (fun s =>
      (w.uncertaintySet s).setConstraints.map (renderSetConstraint shown numeral))
    ++ m.parameters.map fun u => numeral u.lower ++ " <= " ++ u.name.asText shown ++ " <= "
      ++ numeral u.upper)

end Workspace

end RobustOpt
