import RobustOpt.Operand.Comparison
import RobustOpt.Resolution.Solve

/-!
# Operands as constraints, objectives and values

Where an operand goes when it is added to a model, a set or a master, and what it is worth after a
solve. Containers are accepted only where several constraints are expected.

## Main definitions

* `Operand.flatten`: the constraints in a container.
* `Workspace.addConstraint`, `Workspace.addToSet`: route an operand.
* `Workspace.setObjectiveTo`: take an operand as the objective of a model.
* `Workspace.valueOf`: the present value of an operand.
-/

namespace RobustOpt

namespace Operand

variable {α : Type}

/-- The items of a list or array, if the operand is one. -/
def listItems? : Operand α → Option (List (Operand α))
  | list vs => some vs
  | literal (.list vs) | array (.list vs) => some (vs.map literal)
  | _ => none

/-- Whether an operand is a container of constraints. -/
def isContainer : Operand α → Bool
  | list _ | array _ | literal (.list _) => true
  | _ => false

/-- The common length of lists, if all operands are lists of one length. -/
def commonLength? (vs : List (Operand α)) : Option Nat :=
  match vs.map fun v => v.listItems?.map List.length with
  | some n :: rest => if rest.all (· == some n) then some n else none
  | _ => none

/-- Replace a rectangular list of lists by its entries, `depth` times at most. -/
def flattenItems : Nat → List (Operand α) → List (Operand α)
  | 0, vs => vs
  | depth + 1, vs =>
    match commonLength? vs with
    | some _ => flattenItems depth (vs.flatMap fun v => (v.listItems?).getD [])
    | none => vs

/-- The entries of a container. Rectangular nested lists are flattened, ragged ones keep their
inner lists; anything else is its own only entry. -/
def flatten (v : Operand α) : List (Operand α) :=
  match v.listItems? with
  | some vs => flattenItems 32 vs
  | none => [v]

end Operand

namespace Workspace

variable {α : Type} [Scalar α]

/-- Add a constraint to a model, for a set given explicitly or its default set. The answer is the
position if it became an uncertain constraint. -/
def addConstraint (id : Nat) (given : Option Nat) (c : Operand α) :
    Action (Workspace α) (Fault α) (Option Nat) := do
  let w ← get
  if c.isContainer then throw .container
  match c with
  | .linear c =>
    set (w.addLinear id c)
    return none
  | .setConstraint c =>
    set (← w.addSetConstraint (given.getD (w.model id).defaultSet) c)
    return none
  | .uncertainConstraint c =>
    let (index, w) ← w.pose id c given
    set w
    return index
  | _ => throw (.notAConstraint c.kindName)

/-- Add the constraints in a container, one after the other. -/
def addConstraints (id : Nat) (given : Option Nat) (cs : Operand α) :
    Action (Workspace α) (Fault α) (List (Option Nat)) :=
  cs.flatten.mapM (addConstraint id given)

/-- Constrain the parameters of a set. -/
def addToSet (target : Nat) (c : Operand α) : Action (Workspace α) (Fault α) Unit := do
  let w ← get
  if c.isContainer then throw .container
  match c with
  | .setConstraint c => set (← w.addSetConstraint target c)
  | .uncertainConstraint c => set (← w.addUncertainToSet target c.constraint)
  | _ => throw (.notASetConstraint c.kindName)

/-- Constrain the parameters of a set by the constraints in a container. -/
def addAllToSet (target : Nat) (cs : Operand α) : Action (Workspace α) (Fault α) Unit :=
  cs.flatten.forM (addToSet target)

/-- The direction a word stands for. -/
def directionOf (sense : Literal α) : Except (Fault α) Direction :=
  match sense with
  | .text "min" => .ok .minimize
  | .text "max" => .ok .maximize
  | s => .error (.unknownObjectiveSense s)

/-- An operand as an objective. Expressions must not have parameters. -/
def objectiveFor (direction : Direction) (v : Operand α) : Except (Fault α) (Objective α) :=
  match v.term? with
  | some t => do objectiveOf direction (← t.toOperand.toMixed)
  | none => do return ⟨direction, ← v.toAffine⟩

/-- Take an operand as the objective of a model. -/
def setObjectiveTo (w : Workspace α) (id : Nat) (sense : Literal α) (v : Operand α) :
    Except (Fault α) (Workspace α) := do
  let direction ← directionOf sense
  return w.setObjective id (← objectiveFor direction v)

/-- The present value of a decision variable or an affine expression. Another operand has the
fault `otherwise`. -/
def valueOf (w : Workspace α) (otherwise : Operand α → Fault α) (v : Operand α) :
    Except (Fault α) (Option α) :=
  match v with
  | .decision x => .ok (w.value? x)
  | .affine e => .ok (e.form.value? w.values)
  | v => .error (otherwise v)

/-- The scenario query of an operand; `written` is its text in messages. Containers and composite
expressions are no keys. -/
def queryOf (written : String) : Operand α → Query α
  | .uncertainConstraint c => .constraint c.tag
  | .literal l => .index l
  | .list _ | .array _ | .uncertain _ | .mixed _ => .index (.list [])
  | _ => .index (.text written)

end Workspace

namespace Master

variable {α : Type}

/-- Add a constraint, which has to be linear, to a master. -/
def addOperand (c : Operand α) : Action (Master α) (Fault α) Unit :=
  match c with
  | .linear c => modify fun m => m.addConstraints [c]
  | .list _ | .literal (.list _) => throw .container
  | _ => throw (.notALinearConstraint c.kindName)

/-- Add the constraints of a list, one after the other. -/
def addOperands (cs : Operand α) : Action (Master α) (Fault α) Unit := do
  match cs.listItems? with
  | some items => items.forM addOperand
  | none => throw .wrongKind

end Master

end RobustOpt
