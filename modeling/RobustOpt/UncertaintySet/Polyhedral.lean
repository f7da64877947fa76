import RobustOpt.UncertaintySet.CuttingPlane

/-!
# Polyhedral sets

The parameters within their bounds that satisfy linear constraints. A side is reformulated by the
dual of its worst case; the worst case is read off the box if there are only bounds, and is the
optimum of a linear problem otherwise.

## Main definitions

* `Polyhedron`: inequalities `A u ≤ b` and equations `E u = f`.
* `Polyhedral`: the set constraints, with the data of the last setup.
* `Polyhedral.polyhedronOf`: the polyhedron of bounds and set constraints.
* `Polyhedral.geometry`: worst case and reformulation.
-/

namespace RobustOpt

/-- The points `u` with `A u ≤ b` and `E u = f`. -/
structure Polyhedron (α : Type) where
  a : List (List α)
  b : List α
  e : List (List α)
  f : List α

structure Polyhedral (α : Type) where
  constraints : List (SetConstraint α)
  /-- Lower and upper bounds of the parameters at the last setup. -/
  bounds : Option (List α × List α)
  polyhedron : Option (Polyhedron α)
  /-- Whether the adversarial problem was set up in advance. -/
  adversary : Bool
  /-- The solver of adversarial problems that the last setup was asked for, by name. -/
  solverName : Literal α

namespace Polyhedron

variable {α : Type} [Scalar α]

def empty : Polyhedron α := ⟨[], [], [], []⟩

def addInequality (p : Polyhedron α) (row : List α) (bound : α) : Polyhedron α :=
  { p with a := p.a ++ [row], b := p.b ++ [bound] }

def addEquation (p : Polyhedron α) (row : List α) (value : α) : Polyhedron α :=
  { p with e := p.e ++ [row], f := p.f ++ [value] }

def unit (size position : Nat) : List α :=
  (List.range size).map fun j => if j = position then 1 else 0

/-- The rows of the bounds of parameter `i`: an equation if they agree, otherwise an inequality
for each finite bound, the upper one first. -/
def addBounds (size : Nat) (p : Polyhedron α) (i : Nat) (lower upper : α) : Polyhedron α :=
  if Scalar.eq lower upper then p.addEquation (unit size i) upper
  else
    let p := if Scalar.isFinite upper then p.addInequality (unit size i) upper else p
    if Scalar.isFinite lower then p.addInequality ((unit size i).map (- ·)) (-lower) else p

/-- The rows of a set constraint with collected coefficients `row`. -/
def addConstraint (p : Polyhedron α) (c : SetConstraint α) (row : List α) : Polyhedron α :=
  if c.isEquality then p.addEquation row c.upper
  else c.sides.foldl (fun p side => p.addInequality (row.map (side.1 * ·)) side.2) p

/-- The linear problem of maximizing `g · u`. -/
def problem (p : Polyhedron α) (g : List α) : Except (Fault α) LinearProblem := do
  let cost ← g.mapM Master.rational
  let row := fun (equality : Bool) (r : List α × α) => do
    return LinearProblem.Row.mk (← r.1.mapM Master.rational) equality (← Master.rational r.2)
  let below ← (p.a.zip p.b).mapM (row false)
  let equal ← (p.e.zip p.f).mapM (row true)
  return {
    unknowns := g.map fun _ => ⟨false, false⟩
    cost := cost.map (- ·)
    rows := below ++ equal }

/-- A point that maximizes `g · u`. -/
def maximizer (p : Polyhedron α) (g : List α) (solver : Solver α := .builtin) :
    Except (Fault α) (List α) := do
  if (p.a ++ p.e).any fun row => row.length ≠ g.length then throw .badValue
  match ← solver (← p.problem g) with
  | .optimal _ u => return u.map Scalar.ofRat
  | .infeasible => throw (.adversary Status.infeasible.text)
  | .unbounded => throw (.adversary Status.unbounded.text)

end Polyhedron

namespace Polyhedral

variable {α : Type} [Scalar α]

def new : Polyhedral α := ⟨[], none, none, false, .absent⟩

/-- Whether there are no constraints besides the bounds. -/
def isBox (s : Polyhedral α) : Bool := s.constraints.isEmpty

/-- The collected coefficients of a set constraint as a dense row. -/
def constraintRow (size : Nat) (c : SetConstraint α) :
    Action (Accumulator α) (Fault α) (List α) := do
  let items ← c.expr.collectIn
  return items.foldl (fun row p => row.set p.1 p.2) (List.replicate size 0)

/-- The polyhedron of parameter bounds and set constraints. -/
def polyhedronOf (size : Nat) (lower upper : List α) (constraints : List (SetConstraint α)) :
    Except (Fault α) (Polyhedron α) := do
  let box := (List.range size).foldl (fun p i =>
    p.addBounds size i (lower.getD i 0) (upper.getD i 0)) Polyhedron.empty
  let rows ← ((constraints.mapM (constraintRow size)).perform (.empty size)).1
  return (constraints.zip rows).foldl (fun p c => p.addConstraint c.1 c.2) box

/-- Take the name of a solver from the preferences, and the bounds and the polyhedron from a
model. -/
def setup (model : Model α) (prefs : Preferences α) (preferCuts : Bool) :
    Action (Polyhedral α) (Fault α) Unit := do
  modify fun s => { s with solverName := prefs.get Preferences.adversarySolver .absent }
  let (lower, upper) := model.parameterBounds
  modify fun s => { s with bounds := some (lower, upper) }
  let polyhedron ← polyhedronOf model.parameters.length lower upper (← get).constraints
  modify fun s => { s with
    polyhedron := some polyhedron, adversary := preferCuts && !s.isBox }

/-- The value of a parameter on which the worst case does not depend: the midpoint of its bounds,
its only finite bound, or undefined. -/
def freeValue (lower upper : α) : α :=
  if Scalar.isFinite lower && Scalar.isFinite upper then Scalar.half (lower + upper)
  else if Scalar.isFinite lower then lower
  else if Scalar.isFinite upper then upper
  else Scalar.nan

/-- The worst case in the direction `g` of a parameter with given bounds. -/
def vertexEntry (index : Nat) (g lower upper : α) : Except (Fault α) α :=
  if Scalar.isZero g then .ok (freeValue lower upper)
  else
    let bound := if Scalar.lt 0 g then upper else lower
    if Scalar.isFinite bound then .ok bound else .error (.unboundedWorstCase index)

/-- The worst case over a box. -/
def boxVertex (lower upper g : List α) : Except (Fault α) (List α) :=
  ((List.range g.length).zip g).mapM fun p =>
    match lower[p.1]?, upper[p.1]? with
    | some l, some u => vertexEntry p.1 p.2 l u
    | _, _ => .error .indexOutOfRange

/-- The worst case of a linear function over the set. -/
def worstCase (s : Polyhedral α) (g : List α) (solver : Solver α := .builtin) :
    Except (Fault α) (List α) :=
  if s.isBox then
    match s.bounds with
    | some (lower, upper) => boxVertex lower upper g
    | none => if g.isEmpty then .ok [] else .error .wrongKind
  else
    match s.polyhedron with
    | some p => p.maximizer g solver
    | none => .error .missingAttribute

/-- The dual constraints of a side: the coefficients of the parameters are combinations of the
rows, with nonnegative multipliers for the inequalities, and the same combination of the right
sides bounds the worst case. -/
def reformulate (p : Polyhedron α) (side : Bilinear.Side α) (certain : Affine α) (rhs : α)
    (decisions : List (Decision α)) (supply : Supply) :
    Except (Fault α) (List (LinearConstraint α) × Supply) := do
  let slopes ← Affine.ofMap side.linear side.offset decisions
  let (below, supply) :=
    if p.b.isEmpty then ([], supply) else supply.fresh (some p.b.length) true
  let (equal, supply) :=
    if p.f.isEmpty then ([], supply) else supply.fresh (some p.f.length) false
  let dual := (List.range slopes.length).map fun i =>
    ((Affine.constant 0).addColumns ((p.a.map fun row => row.getD i 0).zip below)).addColumns
      ((p.e.map fun row => row.getD i 0).zip equal)
  let bound := (certain.addColumns (p.b.zip below)).addColumns (p.f.zip equal)
  return ([.entrywise .equal slopes dual, .atMost bound (.constant rhs)], supply)

def geometry (s : Polyhedral α) (solver : Solver α := .builtin) : Geometry α where
  worstCase := fun g => s.worstCase g solver
  reformulate := match s.polyhedron with
    | some p => reformulate p
    | none => fun _ _ _ _ _ => .error .missingAttribute

end Polyhedral

end RobustOpt
