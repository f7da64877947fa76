import RobustOpt.Affine.Expression

/-!
# Linear constraints

A linear constraint compares two affine expressions, or two vectors of them entry by entry, and
counts as one constraint either way.

## Main definitions

* `LinearConstraint`: a relation and the pairs of sides.
* `LinearConstraint.text`: the written form.
* `LinearConstraint.rows`: the differences of the sides, as linear forms.
* `Objective`: an affine expression to minimize or maximize.
-/

namespace RobustOpt

inductive Relation where
  | atMost
  | equal
deriving DecidableEq, Repr

namespace Relation

def text : Relation → String
  | atMost => "<="
  | equal => "=="

end Relation

/-- Each pair of sides is a scalar comparison `left ≤ right` or `left = right`. -/
structure LinearConstraint (α : Type) where
  relation : Relation
  sides : List (Affine α × Affine α)

namespace LinearConstraint

variable {α : Type}

/-- The constraint `left ≤ right`. -/
def atMost (left right : Affine α) : LinearConstraint α := ⟨.atMost, [(left, right)]⟩

/-- The constraint `left = right`. -/
def equal (left right : Affine α) : LinearConstraint α := ⟨.equal, [(left, right)]⟩

/-- The entrywise constraint on two vectors. -/
def entrywise (relation : Relation) (left right : List (Affine α)) : LinearConstraint α :=
  ⟨relation, left.zip right⟩

def text (shown : α → String) (c : LinearConstraint α) : String :=
  String.intercalate ", " (c.sides.map fun s =>
    s.1.text shown ++ " " ++ c.relation.text ++ " " ++ s.2.text shown)

variable [Scalar α]

/-- The forms that have to be at most zero, or zero. -/
def rows (c : LinearConstraint α) : List (LinearForm α) :=
  c.sides.map fun s => (s.1.form.add s.2.form.neg).collected

def columns (c : LinearConstraint α) : List Column := c.rows.flatMap LinearForm.columns

end LinearConstraint

inductive Direction where
  | minimize
  | maximize
deriving DecidableEq, Repr

namespace Direction

/-- The sign that turns an objective into a cost to minimize. -/
def factor : Direction → Rat
  | minimize => 1
  | maximize => -1

def text : Direction → String
  | minimize => "minimize"
  | maximize => "maximize"

end Direction

structure Objective (α : Type) where
  direction : Direction
  expr : Affine α

namespace Objective

variable {α : Type}

/-- The objective of a pure feasibility problem. -/
def feasibility [Scalar α] : Objective α := ⟨.minimize, .constant 0⟩

def text (shown : α → String) (o : Objective α) : String :=
  o.direction.text ++ " " ++ o.expr.text shown

end Objective

end RobustOpt
