import RobustOpt.Affine.Column
import RobustOpt.Fault

/-!
# Decision variables and uncertain parameters

The two kinds of symbols an expression is built from. A symbol belongs to a model and has a
position in it, a name and bounds.

## Main definitions

* `Parameter`: a scalar uncertain parameter.
* `Decision`: a scalar decision variable with its column.
* `checkBounds`: the two bounds of a symbol, absent ones being infinite.
-/

namespace RobustOpt

/-- A scalar uncertain parameter. Its name may be any literal that is not absent. -/
structure Parameter (α : Type) where
  model : Nat
  index : Nat
  name : Literal α
  lower : α
  upper : α

/-- A scalar decision variable, backed by a column of the linear problem. -/
structure Decision (α : Type) where
  model : Nat
  index : Nat
  name : String
  lower : α
  upper : α
  column : Column

variable {α : Type} [Scalar α]

/-- The bounds of a symbol. The lower one is converted first; they must not cross. -/
def checkBounds (name lower upper : Literal α) : Except (Fault α) (α × α) := do
  let lb ← lower.toBound (-Scalar.infinity)
  let ub ← upper.toBound Scalar.infinity
  if Scalar.lt ub lb then throw (.crossedBounds lb name ub)
  return (lb, ub)

/-- Whether the name of a parameter is a text. Other names cannot stand alone as a term. -/
def Parameter.hasTextName (p : Parameter α) : Bool :=
  match p.name with
  | .text _ => true
  | _ => false

end RobustOpt
