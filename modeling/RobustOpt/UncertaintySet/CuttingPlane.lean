import RobustOpt.Expression.Bilinear
import RobustOpt.Model.Basic
import RobustOpt.Preference

/-!
# Reformulation and cutting planes

Sets that resolve a constraint either by constraints equivalent to its worst case or by cutting
planes. Every registered constraint is kept as its bilinear form and treated side by side; a kind
of set contributes the worst case of a linear function over it and the constraints equivalent to
one side.

## Main definitions

* `CuttingPlane`: what such a set keeps during a solve.
* `Geometry`: what a kind of set contributes.
* `CuttingPlane.reform`, `CuttingPlane.cuts`, `CuttingPlane.scenarios`: the phases.
-/

namespace RobustOpt

/-- The place of the next variable in the order of creation, and the number of the next auxiliary
variable. -/
structure Supply where
  serial : Nat
  auxiliary : Nat
deriving DecidableEq, Repr

namespace Supply

/-- A new auxiliary vector, or scalar if no size is given. -/
def fresh (s : Supply) (size : Option Nat) (nonneg : Bool) : List Column × Supply :=
  let column := fun entry => Column.mk s.serial entry (.auxiliary s.auxiliary) nonneg false
  (match size with
    | some n => (List.range n).map fun i => column (some i)
    | none => [column none],
    ⟨s.serial + 1, s.auxiliary + 1⟩)

end Supply

/-- What a set keeps between the phases of a solve. -/
structure CuttingPlane (α : Type) where
  model : Option Nat
  indices : List Int
  forms : List (Int × SparseMatrix α)
  preferCuts : Literal α
  cutTol : Literal α

/-- What a kind of set contributes. -/
structure Geometry (α : Type) where
  /-- A point of the set that maximizes a linear function of the parameters. -/
  worstCase : List α → Except (Fault α) (List α)
  /-- Constraints equivalent to the worst case of one side, for a certain part and a right side. -/
  reformulate : Bilinear.Side α → Affine α → α → List (Decision α) → Supply →
    Except (Fault α) (List (LinearConstraint α) × Supply)

namespace Affine

variable {α : Type} [Scalar α]

/-- An auxiliary column as an expression. -/
def auxiliary (c : Column) : Affine α := .column c.label c

/-- The sum of an expression and the multiples of columns with a nonzero coefficient. -/
def addColumns (e : Affine α) (terms : List (α × Column)) : Affine α :=
  (terms.filter fun t => !Scalar.isZero t.1).foldl
    (fun acc t => .add acc (.scale t.1 (auxiliary t.2))) e

/-- `coefficients · [x, 1]` without the terms whose coefficient is negligible. It is refused if
there are fewer coefficients than variables. -/
def ofCoefficients (coefficients : List α) (decisions : List (Decision α)) :
    Except (Fault α) (Affine α) :=
  if coefficients.length < decisions.length then .error .indexOutOfRange
  else
    .ok (.combination (coefficients.getLast?.getD 0)
      (((coefficients.zip decisions).filter fun t => !Scalar.negligible t.1).map
        fun t => (t.1, t.2.name, t.2.column)))

/-- The entries of `linear · x + offset`. A variable whose column is negligible throughout is
left out, any other one occurs in every entry. -/
def ofMap (linear : List (List α)) (offset : List α) (decisions : List (Decision α)) :
    Except (Fault α) (List (Affine α)) :=
  if linear.any fun row => row.length < decisions.length then .error .indexOutOfRange
  else
    let present := ((List.range decisions.length).zip decisions).filter fun p =>
      linear.any fun row => !Scalar.negligible (row.getD p.1 0)
    .ok ((linear.zip offset).map fun r =>
      .combination r.2 (present.map fun p => (r.1.getD p.1 0, p.2.name, p.2.column)))

end Affine

namespace CuttingPlane

variable {α : Type} [Scalar α]

def new : CuttingPlane α := ⟨none, [], [], .truth false, .real Scalar.cutTol⟩

/-- Note an index of a model. A model other than the last one starts anew. -/
def register (s : CuttingPlane α) (model : Nat) (index : Int) : CuttingPlane α :=
  let s := if s.model = some model then s else { s with model := some model, indices := [] }
  if s.indices.contains index then s else { s with indices := s.indices ++ [index] }

/-- Read the preferences. -/
def prefer (s : CuttingPlane α) (prefs : Preferences α) : CuttingPlane α :=
  { s with
    preferCuts := prefs.get Preferences.preferCuts (.truth false)
    cutTol := prefs.get Preferences.cutTol (.real Scalar.cutTol) }

/-- The bilinear forms of the registered constraints. -/
def formsOf (s : CuttingPlane α) (model : Model α) :
    Except (Fault α) (List (Int × SparseMatrix α)) :=
  s.indices.mapM fun i => do
    let c ← model.constraint? i
    return (i, ← c.expr.coefficientMatrix model.parameters.length model.decisions.length)

/-- The form of a constraint. -/
def form? (s : CuttingPlane α) (index : Int) : Except (Fault α) (SparseMatrix α) :=
  match s.forms.find? fun p => p.1 == index with
  | some p => .ok p.2
  | none => .error .missingKey

/-- The worst case of a side at a point, with the value of the side there. -/
def sideWorstCase (g : Geometry α) (q : SparseMatrix α) (sign : α) (point : List α) :
    Except (Fault α) (List α × α) := do
  if point.length ≠ q.width then throw .badValue
  let (slope, certain) := Bilinear.sensitivity q sign point
  let u ← g.worstCase slope
  return (u, Scalar.dot (u.map Scalar.toFinite) slope + certain)

/-- The cut of a side at a point, if its worst case exceeds the right side by more than the
tolerance. -/
def sideCut (s : CuttingPlane α) (g : Geometry α) (model : Model α) (q : SparseMatrix α)
    (sign rhs : α) (point : List α) : Except (Fault α) (Option (LinearConstraint α)) := do
  let (u, lhs) ← sideWorstCase g q sign point
  if ← s.cutTol.less (.real (lhs - rhs)) then
    let coefficients := Bilinear.substitute q sign (u.map Scalar.toFinite)
    return some (.atMost (← Affine.ofCoefficients coefficients model.decisions) (.constant rhs))
  else return none

/-- The cuts of the violated sides, in the order of the indices. -/
def cuts (s : CuttingPlane α) (g : Geometry α) (model : Model α) (point : List α)
    (indices : List Int) : Except (Fault α) (List (LinearConstraint α)) := do
  let found ← indices.mapM fun i => do
    let q ← s.form? i
    let c ← model.constraint? i
    c.sides.mapM fun side => s.sideCut g model q side.1 side.2 point
  return found.flatten.filterMap id

/-- The scenario of a constraint: the worst case of the side with the least slack, the first of
equal ones. -/
def scenario (s : CuttingPlane α) (g : Geometry α) (model : Model α) (point : List α)
    (index : Int) : Except (Fault α) (Scenario α) := do
  let q ← s.form? index
  let c ← model.constraint? index
  let found ← c.sides.mapM fun side => do
    let (u, lhs) ← sideWorstCase g q side.1 point
    return (side.2 - lhs, u)
  let best := found.foldl (fun (best : Option (α × List α)) p =>
    match best with
    | none => some p
    | some b => if Scalar.lt p.1 b.1 then some p else some b) none
  match best with
  | some b => return b.2
  | none => throw .wrongKind

/-- Scenarios aligned with the indices. -/
def scenarios (s : CuttingPlane α) (g : Geometry α) (model : Model α) (point : List α)
    (indices : List Int) : Except (Fault α) (List (Scenario α)) :=
  indices.mapM (s.scenario g model point)

/-- The constraints equivalent to one side. -/
def reformSide (g : Geometry α) (model : Model α) (dense : List (List α)) (sign rhs : α)
    (supply : Supply) : Except (Fault α) (List (LinearConstraint α) × Supply) := do
  let side ← Bilinear.splitSide? dense sign model.parameters.length
  let certain ← Affine.ofCoefficients side.certain model.decisions
  g.reformulate side certain rhs model.decisions supply

/-- Add the constraints equivalent to one side to the master. -/
def addSide (g : Geometry α) (model : Model α) (dense : List (List α)) (side : α × α) :
    Action (Master α × Supply) (Fault α) Unit := do
  let (master, supply) ← get
  let (constraints, supply) ← reformSide g model dense side.1 side.2 supply
  set (master.addConstraints constraints, supply)

/-- Add the constraints equivalent to each side of a constraint to the master. -/
def reformAt (s : CuttingPlane α) (g : Geometry α) (model : Model α) (index : Int) :
    Action (Master α × Supply) (Fault α) Unit := do
  let q ← s.form? index
  let c ← model.constraint? index
  c.sides.forM (addSide g model q.toDense)

/-- Reformulate constraints one after the other. What was added before a failure stays. -/
def reform (s : CuttingPlane α) (g : Geometry α) (model : Model α) (indices : List Int) :
    Action (Master α × Supply) (Fault α) Unit :=
  indices.forM (s.reformAt g model)

end CuttingPlane

end RobustOpt
