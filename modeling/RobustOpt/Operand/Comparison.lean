import RobustOpt.Operand.Arithmetic

/-!
# Comparisons of operands

Comparing expressions makes a constraint: everything moves to the left and the number in the
constant becomes a bound. Comparing affine expressions over columns makes a linear constraint, and
comparing plain values decides.

## Main definitions

* `Operand.relate`: the constraint that compares a difference with zero.
* `Operand.compare`: the comparison of two operands.
-/

namespace RobustOpt

/-- The comparison with its sides exchanged. -/
def Sense.flip : Sense → Sense
  | .le => .ge
  | .ge => .le
  | .eq => .eq

namespace Operand

variable {α : Type} [Scalar α]

/-- The constraint that compares an expression with zero. A new constraint carries the tag. -/
def relate (tag : Nat) (s : Sense) : Operand α → Except (Fault α) (Operand α)
  | mixed e => do return uncertainConstraint ⟨tag, ← e.relate s⟩
  | uncertain e => do return setConstraint (← e.relate s)
  | v => .error (.notComparable v.kindName)

/-- The constraint for a written sense, which is looked at last. -/
def relateText (tag : Nat) (sense : Literal α) : Operand α → Except (Fault α) (Operand α)
  | v@(mixed _) | v@(uncertain _) =>
    match sense with
    | .text s =>
      match Sense.ofText? s with
      | some sense => v.relate tag sense
      | none => .error (.unknownSense sense)
    | _ => .error (.unknownSense sense)
  | v => .error (.notComparable v.kindName)

/-- The linear constraint between two affine expressions. -/
def compareAffine (s : Sense) (e f : Affine α) : LinearConstraint α :=
  match s with
  | .le => .atMost e f
  | .ge => .atMost f e
  | .eq => .equal e f

/-- Whether two plain operands are the same. Constraints are told apart by their tags. -/
def samePlain : Operand α → Operand α → Bool
  | uncertainConstraint c, uncertainConstraint d => c.tag == d.tag
  | v, w =>
    match v.plain?, w.plain? with
    | some a, some b => a == b
    | _, _ => false

/-- Decide a comparison of two plain operands. -/
def decide (s : Sense) (v w : Operand α) : Except (Fault α) (Operand α) :=
  match s with
  | .eq => .ok (literal (.truth (samePlain v w)))
  | .le | .ge =>
    match v.plain?, w.plain? with
    | some a, some b => do
      let (a, b) := if s = .le then (a, b) else (b, a)
      let below ← a.less b
      return literal (.truth (below || a == b))
    | _, _ => .error .wrongKind

/-- Compare two operands. A new constraint carries the tag. -/
def compare (tag : Nat) (s : Sense) (v w : Operand α) : Except (Fault α) (Operand α) :=
  match v.term?, w.term? with
  | some _, _ => do (← v.sub w).relate tag s
  | none, some _ =>
    if v.isAffine then .error .wrongKind else do (← w.sub v).relate tag s.flip
  | none, none =>
    match v, w with
    | affine e, w => do return linear (compareAffine s e (← w.toAffine))
    | v, affine f => do return linear (compareAffine s.flip f (← v.toAffine))
    | v, w => decide s v w

end Operand

end RobustOpt
