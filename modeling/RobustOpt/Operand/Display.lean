import RobustOpt.Operand.Basic
import RobustOpt.Display

/-!
# Written forms of operands

## Main definitions

* `Operand.text?`: the written form of an operand.
* `Operand.detail?`: the form that also names the kind.
-/

namespace RobustOpt

namespace Operand

variable {α : Type} [Scalar α] (shown numeral : α → String)

/-- The written form of an expression in parameters, if all its names can be written. -/
def uncertainText? (e : Uncertain α) (showConstant : Bool) : Except (Fault α) String :=
  if e.isPrintable then .ok (e.render shown numeral showConstant) else .error .wrongKind

/-- The written form of an expression in decision variables. -/
def mixedText? (e : Mixed α) (showConstant : Bool) : Except (Fault α) String :=
  if e.constant.isPrintable && e.terms.all fun t => t.2.terms.length ≤ 1 || t.2.isPrintable then
    .ok (e.render shown numeral showConstant)
  else .error .wrongKind

/-- The written form of an operand. The name of a parameter has to be a text. -/
def text? : Operand α → Except (Fault α) String
  | literal v => .ok (v.asText shown)
  | array v => .ok (v.asText shown)
  | parameter p =>
    match p.name with
    | .text s => .ok s
    | _ => .error .wrongKind
  | decision x => .ok x.name
  | uncertain e => uncertainText? shown numeral e true
  | mixed e => mixedText? shown numeral e true
  | setConstraint c => do
    let _ ← uncertainText? shown numeral c.expr true
    return renderSetConstraint shown numeral c
  | uncertainConstraint c => do
    let _ ← mixedText? shown numeral c.constraint.expr true
    return renderUncertainConstraint shown numeral c.constraint
  | affine e => .ok (e.text shown)
  | linear c => .ok (c.text shown)
  | list _ | other _ => .error .wrongKind

/-- The written form between parentheses after the kind. -/
def detail? (v : Operand α) : Except (Fault α) String :=
  match v with
  | literal l => .ok (l.itemText shown)
  | parameter p => .ok ("UncertainParameter(" ++ p.name.asText shown ++ ", lb=" ++ shown p.lower
      ++ ", ub=" ++ shown p.upper ++ ")")
  | uncertain _ | mixed _ | decision _ | setConstraint _ | uncertainConstraint _ => do
    return v.kindName ++ "(" ++ (← v.text? shown numeral) ++ ")"
  | _ => v.text? shown numeral

end Operand

end RobustOpt
