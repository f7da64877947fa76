import RobustOpt.Constraint

/-!
# Written forms of expressions and constraints

Terms are joined by plus and minus signs, a coefficient of one is left out, and a negligible
constant is not shown. All functions take the written form of a scalar as an argument.

## Main definitions

* `Uncertain.render`: like terms collected, terms ordered by parameter.
* `Mixed.render`: like terms not collected, composite coefficients between parentheses.
* `Bounded.render`: a constraint.
-/

namespace RobustOpt

namespace Display

variable {α : Type} [Scalar α]

/-- Join signed pieces; the first one carries a bare minus sign. -/
def joinSigned : List (α × String) → String
  | [] => "0"
  | (sign, text) :: rest =>
    rest.foldl (fun acc p => acc ++ (if Scalar.lt p.1 0 then " - " else " + ") ++ p.2)
      ((if Scalar.lt sign 0 then "-" else "") ++ text)

/-- Append a constant, its minus sign becoming the operator. -/
def appendConstant (text constant : String) : String :=
  match constant.toList with
  | '-' :: rest => text ++ " - " ++ String.ofList rest
  | _ => text ++ " + " ++ constant

/-- Whether a coefficient is one or minus one, up to the tolerance. -/
def isUnit (c : α) : Bool := Scalar.le (Scalar.abs (Scalar.abs c - 1)) Scalar.zeroTol

/-- A coefficient and a symbol; a unit coefficient is left out. The sign is kept apart. -/
def signedTerm (numeral : α → String) (c : α) (symbol : String) : α × String :=
  (c, if isUnit c then symbol else numeral (Scalar.abs c) ++ " " ++ symbol)

end Display

open Display

variable {α : Type} [Scalar α]

namespace Uncertain

/-- The name of the parameter at a position, the last one given if there are several. -/
def nameAt (e : Uncertain α) (index : Nat) : Option (Literal α) :=
  (e.terms.reverse.find? fun t => t.1.index == index).map fun t => t.1.name

/-- The collected terms, ordered by parameter. -/
def sorted (e : Uncertain α) : List (Nat × α) :=
  e.collect.mergeSort fun s t => s.1 ≤ t.1

/-- The written form. The constant is appended if it is wanted and not negligible. -/
def render (shown numeral : α → String) (e : Uncertain α) (showConstant : Bool) : String :=
  if e.isConstant then
    if showConstant then numeral e.constant else "0"
  else
    let pieces := e.sorted.map fun t =>
      signedTerm numeral t.2 (((e.nameAt t.1).getD .absent).asText shown)
    let text := joinSigned pieces
    if showConstant && Scalar.le Scalar.displayTol (Scalar.abs e.constant) then
      appendConstant text (numeral e.constant)
    else text

/-- Whether every unit coefficient stands with a name that is a text. -/
def isPrintable (e : Uncertain α) : Bool :=
  e.sorted.all fun t =>
    !isUnit t.2 || match e.nameAt t.1 with
      | some (.text _) => true
      | _ => false

end Uncertain

namespace Mixed

/-- A term of a written form, none if its coefficient is a negligible number. A single parameter
with unit coefficient is written bare, any other coefficient with parameters in parentheses. -/
def renderTerm (shown numeral : α → String) (x : Decision α) (e : Uncertain α) :
    Option (α × String) :=
  match e.terms with
  | [] =>
    if Scalar.le (Scalar.abs e.constant) Scalar.zeroTol then none
    else some (signedTerm numeral e.constant x.name)
  | [(p, c)] =>
    if Scalar.le (Scalar.abs e.constant) Scalar.zeroTol && isUnit c then
      some (c, p.name.asText shown ++ " " ++ x.name)
    else some (1, "(" ++ e.render shown numeral true ++ ") " ++ x.name)
  | _ => some (1, "(" ++ e.render shown numeral true ++ ") " ++ x.name)

/-- The written form. The constant is appended if it is wanted and does not read zero. -/
def render (shown numeral : α → String) (e : Mixed α) (showConstant : Bool) : String :=
  if e.terms.isEmpty then
    if showConstant then e.constant.render shown numeral true else "0"
  else
    let text := joinSigned (e.terms.filterMap fun t => renderTerm shown numeral t.1 t.2)
    let constant := e.constant.render shown numeral true
    if showConstant && constant ≠ "" && constant ≠ "0" then appendConstant text constant else text

end Mixed

namespace Bounded

variable {ε : Type}

/-- A constraint around the written form of its expression. -/
def render (numeral : α → String) (expr : ε → String) (c : Bounded ε α) : String :=
  let text := expr c.expr
  if Scalar.eq c.lower c.upper then text ++ " == " ++ numeral c.upper
  else if Scalar.isFinite c.lower && Scalar.isFinite c.upper then
    numeral c.lower ++ " <= " ++ text ++ " <= " ++ numeral c.upper
  else if Scalar.isFinite c.upper then text ++ " <= " ++ numeral c.upper
  else text ++ " >= " ++ numeral c.lower

end Bounded

/-- The written form of a constraint on parameters. -/
def renderSetConstraint (shown numeral : α → String) (c : SetConstraint α) : String :=
  c.render numeral fun e => e.render shown numeral true

/-- The written form of a constraint on decisions. -/
def renderUncertainConstraint (shown numeral : α → String) (c : UncertainConstraint α) : String :=
  c.render numeral fun e => e.render shown numeral true

end RobustOpt
