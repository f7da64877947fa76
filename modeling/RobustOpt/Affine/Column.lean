/-!
# Columns

The scalar unknowns of linear problems. A column is a decision variable of a model or an entry of
an auxiliary variable that a reformulation introduced. Columns are told apart by the order in
which their variables were created.

## Main definitions

* `Column`: an unknown.
* `Column.label`: its short name, by role and position.
* `Column.precedes`: the order of creation.
* `Column.inOrder`: items put in the order of their columns.
-/

namespace RobustOpt

/-- What an unknown stands for. -/
inductive Column.Role where
  /-- The decision variable at a position of its model. -/
  | decision (index : Nat)
  /-- An auxiliary variable, numbered by creation. -/
  | auxiliary (number : Nat)
deriving DecidableEq, Repr

/-- A scalar unknown: `serial` is the place of its variable in the order of creation and `entry`
its position if the variable is a vector. -/
structure Column where
  serial : Nat
  entry : Option Nat
  role : Column.Role
  nonneg : Bool
  integer : Bool
deriving DecidableEq, Repr

namespace Column

def isDecision (c : Column) : Bool :=
  match c.role with
  | .decision _ => true
  | .auxiliary _ => false

/-- `x` or `a` with a number, the position in a vector between brackets, and a plus sign if the
unknown is nonnegative. -/
def label (c : Column) : String :=
  (match c.role with
    | .decision i => "x" ++ toString i
    | .auxiliary k => "a" ++ toString k)
    ++ (match c.entry with
      | some i => "[" ++ toString i ++ "]"
      | none => "")
    ++ (if c.nonneg then "+" else "")

/-- Earlier variables come first, entries of one vector by position. -/
def precedes (c d : Column) : Bool :=
  c.serial < d.serial || (c.serial == d.serial && decide (c.entry.getD 0 ≤ d.entry.getD 0))

section Order

variable {β : Type} (column : β → Column)

/-- Insert an item before the first one whose column its own precedes. -/
def insertInOrder (b : β) : List β → List β
  | [] => [b]
  | c :: cs =>
    if (column b).precedes (column c) then b :: c :: cs else c :: insertInOrder b cs

/-- Items in the order of their columns; those with one column stay in order. -/
def inOrder (l : List β) : List β := l.foldr (insertInOrder column) []

theorem insertInOrder_perm (b : β) (l : List β) : (insertInOrder column b l).Perm (b :: l) := by
  induction l with
  | nil => exact .refl _
  | cons c cs ih =>
    unfold insertInOrder
    split
    · exact .refl _
    · exact (ih.cons c).trans (.swap b c cs)

theorem inOrder_perm (l : List β) : (inOrder column l).Perm l := by
  induction l with
  | nil => exact .refl _
  | cons b l ih => exact (insertInOrder_perm column b _).trans (ih.cons b)

end Order

end Column

end RobustOpt
