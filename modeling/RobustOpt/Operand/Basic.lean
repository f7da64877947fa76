import RobustOpt.Model.Basic

/-!
# Operands

The values the modelling language computes with: literals, numeric arrays and lists, symbols,
expressions in parameters or in decision variables, constraints, and affine expressions and linear
constraints written directly over columns.

## Main definitions

* `Operand`: the values.
* `Operand.number?`: the number an operand counts as.
* `Operand.toUncertain`, `Operand.toMixed`: the casts.
-/

namespace RobustOpt

inductive Operand (α : Type) where
  | literal (v : Literal α)
  /-- Numeric data; a list stands for a vector or, if nested, for a matrix. -/
  | array (data : Literal α)
  | list (items : List (Operand α))
  | parameter (p : Parameter α)
  | decision (x : Decision α)
  | uncertain (e : Uncertain α)
  | mixed (e : Mixed α)
  | setConstraint (c : SetConstraint α)
  | uncertainConstraint (c : Posed α)
  | affine (e : Affine α)
  | linear (c : LinearConstraint α)
  /-- An object of another kind, of which only the kind matters. -/
  | other (kind : String)

namespace Operand

variable {α : Type}

instance : Inhabited (Operand α) := ⟨literal .absent⟩

/-- The name of the kind of an affine expression in messages. -/
def affineKind : Affine α → String
  | .constant _ => "Constant"
  | .column _ _ => "Variable"
  | .neg _ => "NegExpression"
  | .add _ _ => "AddExpression"
  | .scale _ _ | .scaleRight _ _ => "multiply"
  | .divide _ _ => "DivExpression"

/-- The name of the kind of an operand in messages. -/
def kindName : Operand α → String
  | literal v => v.kindName
  | array _ => "ndarray"
  | list _ => "list"
  | parameter _ => "UncertainParameter"
  | decision _ => "DecisionVariable"
  | uncertain _ => "UncertainExpression"
  | mixed _ => "MixedExpression"
  | setConstraint _ => "UncertainSetConstraint"
  | uncertainConstraint _ => "UncertainConstraint"
  | affine e => affineKind e
  | linear c => if c.relation = .atMost then "Inequality" else "Equality"
  | other kind => kind

/-- The only entry of an array of size one. -/
def soleEntry? : Literal α → Option (Literal α)
  | .list [v] => soleEntry? v
  | .list _ => none
  | v => some v

/-- Whether a whole number fits an array entry. -/
def fitsEntry (i : Int) : Bool :=
  decide (-(Nat.pow 2 63 : Int) ≤ i) && decide (i < (Nat.pow 2 64 : Int))

/-- The number an operand counts as: a number literal, or the only entry of a numeric array. -/
def number? : Operand α → Option (Literal α)
  | literal (.integer i) => some (.integer i)
  | literal (.real x) => some (.real x)
  | array data =>
    match soleEntry? data with
    | some (.integer i) => if fitsEntry i then some (.integer i) else none
    | some (.real x) => some (.real x)
    | _ => none
  | _ => none

variable [Scalar α]

/-- The scalar an operand converts to. -/
def toScalar : Operand α → Except (Fault α) α
  | literal v => v.toScalar
  | array data =>
    match soleEntry? data with
    | some v => v.toScalar
    | none => .error .wrongKind
  | _ => .error .wrongKind

/-- The literal an operand stands for as a bound. -/
def toBound : Operand α → Except (Fault α) (Literal α)
  | literal .absent => .ok .absent
  | v => do return .real (← v.toScalar)

/-- Read an operand as an expression in parameters. -/
def toUncertain (v : Operand α) : Except (Fault α) (Uncertain α) :=
  match v with
  | uncertain e => .ok e
  | parameter p => .ok (.ofParameter p)
  | _ =>
    match v.number? with
    | some n => do return .ofConstant (← n.toScalar)
    | none => .error (.notUncertain v.kindName)

/-- Read an operand as an expression in decision variables. -/
def toMixed : Operand α → Except (Fault α) (Mixed α)
  | mixed e => .ok e
  | decision x => .ok (.ofDecision x)
  | v => do return .ofUncertain (← v.toUncertain)

/-- The items of a list; an absent list has none. -/
def items : Operand α → Except (Fault α) (List (Operand α))
  | list vs => .ok vs
  | literal .absent => .ok []
  | literal (.list vs) | array (.list vs) => .ok (vs.map literal)
  | literal (.text s) => .ok (s.toList.map fun c => literal (.text (String.ofList [c])))
  | _ => .error .wrongKind

/-- A symbol as a parameter of an expression. -/
def symbol : Operand α → Except (Fault α) (Parameter α)
  | parameter p => .ok p
  | decision x => .ok ⟨x.model, x.index, .text x.name, x.lower, x.upper⟩
  | _ => .error .missingAttribute

/-- A decision variable of an expression. -/
def variableOf : Operand α → Except (Fault α) (Decision α)
  | decision x => .ok x
  | _ => .error .missingAttribute

/-- The expression with given parameters, coefficients and constant. Coefficients are converted
before the lengths are compared, the constant afterwards. -/
def buildUncertain (parameters coefficients constant : Operand α) :
    Except (Fault α) (Uncertain α) := do
  let ps ← parameters.items
  let cs ← (← coefficients.items).mapM toScalar
  if ps.length ≠ cs.length then throw (.lengthMismatch "parameters" ps.length cs.length)
  let c ← constant.toScalar
  return ⟨(← ps.mapM symbol).zip cs, c⟩

/-- The expression with given decision variables, coefficients and constant. -/
def buildMixed (decisions coefficients constant : Operand α) : Except (Fault α) (Mixed α) := do
  let xs ← decisions.items
  let cs ← (← coefficients.items).mapM toUncertain
  if xs.length ≠ cs.length then throw (.lengthMismatch "variables" xs.length cs.length)
  let c ← match constant with
    | literal .absent => pure (.ofConstant 0)
    | v => v.toUncertain
  return ⟨(← xs.mapM variableOf).zip cs, c⟩

/-- A constraint on decisions with given bounds. -/
def buildConstraint (tag : Nat) (expr lower upper : Operand α) :
    Except (Fault α) (Operand α) := do
  let e ← expr.toMixed
  return uncertainConstraint ⟨tag, ← Bounded.build e (← lower.toBound) (← upper.toBound)⟩

/-- A constraint on parameters with given bounds. -/
def buildSetConstraint (expr lower upper : Operand α) : Except (Fault α) (Operand α) := do
  let e ← expr.toUncertain
  return setConstraint (← Bounded.build e (← lower.toBound) (← upper.toBound))

/-- The model of an operand, if it has one. -/
def model? : Operand α → Except (Fault α) (Option Nat)
  | parameter p => .ok (some p.model)
  | decision x => .ok (some x.model)
  | uncertain e => .ok e.model?
  | _ => .error .missingAttribute

end Operand

end RobustOpt
