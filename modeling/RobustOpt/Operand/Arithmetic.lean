import RobustOpt.Operand.Basic

/-!
# Arithmetic on operands

The operators of the modelling language. An operator is governed by its left operand if that is an
expression, and by its right operand otherwise. An affine expression over columns on the left does
not take an expression on the right. Subtraction adds the negated right operand and
division multiplies by the reciprocal, so that each product and sum is computed in one place.

## Main definitions

* `Term`: the operands that are expressions.
* `Operand.neg`, `Operand.add`, `Operand.sub`, `Operand.mul`, `Operand.div`: the operators.
-/

namespace RobustOpt

namespace Literal

variable {α : Type} [Scalar α]

/-- A truth value as a number, other literals as they are. -/
def asNumber : Literal α → Literal α
  | truth b => integer (if b then 1 else 0)
  | v => v

/-- Negate a number or truth value. -/
def neg (v : Literal α) : Except (Fault α) (Literal α) :=
  match v.asNumber with
  | integer i => .ok (integer (-i))
  | real x => .ok (real (-x))
  | _ => .error .wrongKind

/-- Combine two numbers, exactly if both are whole. -/
def combine (onWhole : Int → Int → Int) (onScalars : α → α → α) (v w : Literal α) :
    Except (Fault α) (Literal α) :=
  match v.asNumber, w.asNumber with
  | integer i, integer j => .ok (integer (onWhole i j))
  | a, b =>
    if a.isNumber && b.isNumber then do
      return real (onScalars (← a.toScalar) (← b.toScalar))
    else .error .wrongKind

/-- The quotient of two whole numbers, rounded once. -/
def quotient (i j : Int) : Except (Fault α) (Literal α) :=
  let q : Rat := (i : Rat) / (j : Rat)
  if q.floor.natAbs < integerLimit ∧ q.ceil.natAbs < integerLimit then
    .ok (real (Scalar.ofRat q))
  else .error .tooLarge

/-- The quotient of two numbers. -/
def divide (v w : Literal α) : Except (Fault α) (Literal α) :=
  let a := v.asNumber
  let b := w.asNumber
  if !(a.isNumber && b.isNumber) then .error .wrongKind
  else if b.isZero then .error .divisionByZero
  else
    match a, b with
    | integer i, integer j => quotient i j
    | _, _ => do return real ((← a.toScalar) / (← b.toScalar))

end Literal

/-- The operands that are expressions. A parameter counts as the expression it stands for. -/
inductive Term (α : Type) where
  | uncertain (e : Uncertain α)
  | decision (x : Decision α)
  | mixed (e : Mixed α)

namespace Term

variable {α : Type} [Scalar α]

def toOperand : Term α → Operand α
  | uncertain e => .uncertain e
  | decision x => .decision x
  | mixed e => .mixed e

/-- The sum with an operand. -/
def add (t : Term α) (v : Operand α) : Except (Fault α) (Term α) :=
  match t with
  | uncertain e =>
    match v with
    | .decision _ | .mixed _ => do return mixed ((Mixed.ofUncertain e).add (← v.toMixed))
    | _ => do return uncertain (e.add (← v.toUncertain))
  | decision x => do return mixed ((Mixed.ofDecision x).add (← v.toMixed))
  | mixed e => do return mixed (e.add (← v.toMixed))

def scale (c : α) : Term α → Term α
  | uncertain e => uncertain (e.scale c)
  | decision x => mixed ((Mixed.ofDecision x).scale c)
  | mixed e => mixed (e.scale c)

def neg (t : Term α) : Term α := t.scale (-1)

/-- The product of two expressions. At most one of them may have decision variables and at most
one may have parameters. -/
def mul : Term α → Term α → Except (Fault α) (Term α)
  | uncertain e, uncertain f => do return uncertain (← e.mul f)
  | uncertain e, decision x => .ok (mixed (.ofCoefficient x e))
  | uncertain e, mixed m => do return mixed (← m.mulUncertain e)
  | decision x, uncertain f => do return mixed (← (Mixed.ofDecision x).mulUncertain f)
  | mixed m, uncertain f => do return mixed (← m.mulUncertain f)
  | decision _, _ | mixed _, _ => .error .decisionProduct

/-- The fault of a division by something other than a number. -/
def divisorFault : Term α → Fault α
  | uncertain _ => .uncertainDivisor
  | decision _ | mixed _ => .mixedDivisor

end Term

namespace Operand

variable {α : Type} [Scalar α]

/-- The expression an operand is, if it is one. -/
def term? : Operand α → Option (Term α)
  | parameter p => some (.uncertain (.ofParameter p))
  | uncertain e => some (.uncertain e)
  | decision x => some (.decision x)
  | mixed e => some (.mixed e)
  | _ => none

/-- An operand that is not an expression, as a literal for plain arithmetic. -/
def plain? (v : Operand α) : Option (Literal α) :=
  match v with
  | literal l => some l
  | _ => v.number?

/-- An operand as an affine expression over columns. -/
def toAffine : Operand α → Except (Fault α) (Affine α)
  | affine e => .ok e
  | v =>
    match v.plain? with
    | some (.text _) => .error .wrongKind
    | some l => do return .constant (← l.toScalar)
    | none => .error .wrongKind

/-- Whether an operand is an affine expression over columns. -/
def isAffine : Operand α → Bool
  | affine _ => true
  | _ => false

def neg (v : Operand α) : Except (Fault α) (Operand α) :=
  match v.term? with
  | some t => .ok t.neg.toOperand
  | none =>
    match v with
    | affine e => .ok (affine e.neg)
    | _ =>
      match v.plain? with
      | some l => do return literal (← l.neg)
      | none => .error .wrongKind

/-- Combine two operands that are not expressions. -/
def combinePlain (onAffine : Affine α → Affine α → Affine α)
    (onLiterals : Literal α → Literal α → Except (Fault α) (Literal α)) (v w : Operand α) :
    Except (Fault α) (Operand α) :=
  if v.isAffine || w.isAffine then do return affine (onAffine (← v.toAffine) (← w.toAffine))
  else
    match v.plain?, w.plain? with
    | some a, some b => do return literal (← onLiterals a b)
    | _, _ => .error .wrongKind

def add (v w : Operand α) : Except (Fault α) (Operand α) :=
  match v.term?, w.term? with
  | some t, _ => do return (← t.add w).toOperand
  | none, some t => if v.isAffine then .error .wrongKind else do return (← t.add v).toOperand
  | none, none => combinePlain .add (Literal.combine (· + ·) (· + ·)) v w

/-- Subtraction adds the negated right operand, which is computed first. -/
def sub (v w : Operand α) : Except (Fault α) (Operand α) :=
  match v.term?, w.term? with
  | some t, _ => do return (← t.add (← w.neg)).toOperand
  | none, some t =>
    if v.isAffine then .error .wrongKind else do return (← t.neg.add v).toOperand
  | none, none =>
    combinePlain (fun e f => .add e f.neg) (Literal.combine (· - ·) (· - ·)) v w

/-- The product of an expression with an operand that is not one. -/
def scaleBy (t : Term α) (v : Operand α) : Except (Fault α) (Operand α) :=
  match v.number? with
  | some n => do return (t.scale (← n.toScalar)).toOperand
  | none => .error .wrongKind

/-- The product of an affine expression with a number, in the order written. -/
def mulAffine (v w : Operand α) : Except (Fault α) (Operand α) :=
  match v, w with
  | affine e, affine f =>
    match e, f with
    | .constant c, f => .ok (affine (.scale c f))
    | e, .constant c => .ok (affine (.scaleRight e c))
    | _, _ => .error .wrongKind
  | affine e, w =>
    match w.plain? with
    | some l => do return affine (.scaleRight e (← l.toScalar))
    | none => .error .wrongKind
  | v, affine f =>
    match v.plain? with
    | some l => do return affine (.scale (← l.toScalar) f)
    | none => .error .wrongKind
  | _, _ => .error .wrongKind

def mul (v w : Operand α) : Except (Fault α) (Operand α) :=
  match v.term?, w.term? with
  | some s, some t => do return (← s.mul t).toOperand
  | some t, none => scaleBy t w
  | none, some t => scaleBy t v
  | none, none =>
    if v.isAffine || w.isAffine then mulAffine v w
    else combinePlain .add (Literal.combine (· * ·) (· * ·)) v w

/-- Division multiplies by the reciprocal of a number. -/
def div (v w : Operand α) : Except (Fault α) (Operand α) :=
  match v.term? with
  | some t =>
    match w.number? with
    | some n => do
      let d ← n.toScalar
      if Scalar.isZero d then throw .divisionByZero
      return (t.scale (1 / d)).toOperand
    | none => .error t.divisorFault
  | none =>
    if w.term?.isSome then .error .wrongKind
    else
      match v, w.plain? with
      | affine e, some l => do return affine (.divide e (← l.toScalar))
      | _, some l =>
        match v.plain? with
        | some k => do return literal (← k.divide l)
        | none => .error .wrongKind
      | _, none => .error .wrongKind

end Operand

end RobustOpt
