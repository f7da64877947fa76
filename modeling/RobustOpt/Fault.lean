import RobustOpt.Literal

/-!
# Faults

The causes for which an operation is refused, each with the data its message shows. Causes of
the library carry a message; causes that lie in the data alone (a text that is no number, an
index out of range) have none.

## Main definitions

* `Fault`: the causes.
* `Fault.category`: the family a cause belongs to.
* `Fault.message?`: the text of a cause.
-/

namespace RobustOpt

/-- The families of faults, the finer ones being special cases of a value or type fault. -/
inductive Fault.Category where
  | value
  | type
  | index
  | key
  | attribute
  | overflow
  | zeroDivision
  | registration
  | registrationConflict
  | constraintType
  | vectorized
  | unsupportedPhase
deriving DecidableEq, Repr

inductive Fault (α : Type) where
  -- data without a message
  | tooLarge
  | badValue
  | wrongKind
  | divisionByZero
  | indexOutOfRange
  | missingKey
  | missingAttribute
  -- expressions
  | lengthMismatch (noun : String) (items coefficients : Nat)
  | notUncertain (kind : String)
  | uncertainProduct
  | uncertainDivisor
  | mixedDivisor
  | uncertainCoefficientProduct
  | decisionProduct
  -- bounds and constraints
  | crossedBounds (lower : α) (name : Literal α) (upper : α)
  | crossedConstraint (lower upper : α)
  | unboundedConstraint
  | notComparable (kind : String)
  | unknownSense (sense : Literal α)
  | container
  | notAConstraint (kind : String)
  | notASetConstraint (kind : String)
  | notALinearConstraint (kind : String)
  | decisionsInSetConstraint (setKind : String)
  | noDecisions (index : Int) (setKind : String)
  -- models
  | unknownObjectiveSense (sense : Literal α)
  | uncertainObjective
  | noValue (kind : String)
  | noScenarios
  | foreignConstraint
  | noScenario (index : Literal α)
  -- uncertainty sets
  | unsupported (setKind phase : String)
  | negativeBudget
  | negativeDeviation
  | dimension (name : String) (expected : Nat) (shape : List Nat)
  | unboundedParameter (setKind : String) (name : Literal α)
  | unboundedWorstCase (index : Nat)
  | adversary (status : String)
  -- resolution
  | negativeRounds
  | owned (index : Literal α) (owner other : String)
  | unregistered (indices : List Nat)
  | ambiguousCount (setKind : String) (count : Int) (offered : Nat)
  | notOffered (setKind : String) (keys : List (Literal α))
  | scenarioCount (setKind : String) (found expected : Nat)

namespace Fault

variable {α : Type}

def category : Fault α → Category
  | tooLarge => .overflow
  | divisionByZero => .zeroDivision
  | indexOutOfRange => .index
  | missingKey => .key
  | missingAttribute => .attribute
  | wrongKind | notUncertain _ | uncertainProduct | uncertainDivisor | mixedDivisor
  | uncertainCoefficientProduct | decisionProduct | notComparable _ | notAConstraint _
  | notASetConstraint _ | notALinearConstraint _ | noValue _ => .type
  | container => .vectorized
  | decisionsInSetConstraint _ | noDecisions _ _ => .constraintType
  | unsupported _ _ => .unsupportedPhase
  | owned _ _ _ => .registrationConflict
  | unregistered _ => .registration
  | _ => .value

/-- A list between brackets. -/
def bracketed (items : List String) : String := "[" ++ String.intercalate ", " items ++ "]"

/-- The sizes of an array between parentheses; a single size is followed by a comma. -/
def shapeText : List Nat → String
  | [n] => "(" ++ toString n ++ ",)"
  | ns => "(" ++ String.intercalate ", " (ns.map toString) ++ ")"

/-- The text of a fault, `shown` being the written form of a scalar. -/
def message? (shown : α → String) : Fault α → Option String
  | lengthMismatch noun items coefficients =>
    some s!"Got {items} {noun} but {coefficients} coefficients."
  | notUncertain kind => some s!"Cannot convert {kind} to an uncertain expression."
  | uncertainProduct => some ("Cannot multiply two uncertain expressions: the product is not "
      ++ "affine in the uncertain parameters.")
  | uncertainDivisor => some "Can only divide an uncertain expression by a number."
  | mixedDivisor => some "Can only divide an expression by a number."
  | uncertainCoefficientProduct => some ("Cannot multiply an uncertain coefficient by an "
      ++ "uncertain parameter: the product is not affine in the uncertain parameters.")
  | decisionProduct => some ("Cannot multiply decision variables: the product is not affine "
      ++ "in the decision variables.")
  | crossedBounds lower name upper => some ("Lower bound " ++ shown lower ++ " of "
      ++ name.asText shown ++ " is greater than its upper bound " ++ shown upper ++ ".")
  | crossedConstraint lower upper => some ("Constraint lower bound " ++ shown lower
      ++ " is greater than its upper bound " ++ shown upper ++ ".")
  | unboundedConstraint => some "A constraint needs at least one finite bound."
  | notComparable kind => some s!"Cannot build a constraint from {kind}."
  | unknownSense sense => some ("Unknown constraint sense " ++ sense.asText shown ++ ".")
  | container => some ("add_constraint only accepts a single scalar constraint. If you are "
      ++ "trying to add a vectorized constraint, build the element-wise constraints and pass "
      ++ "them to add_constraints instead.")
  | notAConstraint kind => some s!"Expected a constraint, got {kind}."
  | notASetConstraint kind => some s!"Expected an uncertain set constraint, got {kind}."
  | notALinearConstraint kind => some s!"Expected a cvxpy constraint, got {kind}."
  | decisionsInSetConstraint setKind => some ("Can't add a constraint with decision variables "
      ++ s!"to {setKind}: constraint has decision-variable terms.")
  | noDecisions index setKind => some (s!"Uncertain constraint {index} cannot be registered to "
      ++ s!"{setKind}: constraint has no decision-variable terms. Add it to the uncertainty set "
      ++ "as a constraint on uncertain parameters instead.")
  | unknownObjectiveSense sense => some ("Unknown objective sense " ++ sense.asText shown
      ++ ", expected 'min' or 'max'.")
  | uncertainObjective => some ("The objective depends on uncertain parameters. Minimize an "
      ++ "auxiliary variable t and add the uncertain constraint objective <= t instead.")
  | noValue kind => some s!"Cannot get the value of {kind}."
  | noScenarios => some "No scenarios available. Solve with report_scenarios=True."
  | foreignConstraint => some "The constraint is not an uncertain constraint of this model."
  | noScenario index => some ("No scenario for uncertain constraint " ++ index.asText shown
      ++ ": it was resolved by reformulation.")
  | unsupported setKind phase => some s!"{setKind} has not implemented {phase}"
  | negativeBudget => some "Gamma must be nonnegative."
  | negativeDeviation => some "Deviations must be nonnegative."
  | dimension name expected shape => some (s!"Mismatching dimension for {name}: expected "
      ++ s!"{expected} values, got " ++ shapeText shape ++ ".")
  | unboundedParameter setKind name => some (s!"{setKind} needs a finite nominal value and "
      ++ "deviation for " ++ name.asText shown ++ ". Give it finite bounds or pass nominal and "
      ++ "deviation.")
  | unboundedWorstCase index => some (s!"The worst case is unbounded: uncertain parameter {index} "
      ++ "has no bound in the direction of the constraint. Add bounds or constraints to the "
      ++ "uncertainty set.")
  | adversary status => some (s!"The adversarial problem is {status}: the uncertainty set is "
      ++ "empty or unbounded in the direction of a constraint.")
  | negativeRounds => some "max_iter must be nonnegative."
  | owned index owner other => some ("Uncertain constraint " ++ index.asText shown
      ++ s!" is already owned by {owner}, cannot register it to {other}.")
  | unregistered indices => some ("Uncertain constraints " ++ bracketed (indices.map toString)
      ++ " are not registered to any uncertainty set.")
  | ambiguousCount setKind count offered => some (s!"{setKind} reported reformulating {count} "
      ++ s!"of {offered} constraints. Return the reformulated indices instead of a count.")
  | notOffered setKind keys => some (s!"{setKind} reported reformulating constraints "
      ++ bracketed (Literal.itemTexts shown keys) ++ " it does not own.")
  | scenarioCount setKind found expected => some (s!"{setKind} returned {found} scenarios for "
      ++ s!"{expected} constraints.")
  | _ => none

end Fault

namespace Literal

variable {α : Type} [Scalar α]

/-- The least magnitude of a whole number that rounds to no finite double. -/
def integerLimit : Nat := Nat.pow 2 1024 - Nat.pow 2 970

/-- The scalar a literal converts to: numbers, truth values and texts that are numerals do. -/
def toScalar : Literal α → Except (Fault α) α
  | real x => .ok x
  | truth b => .ok (if b then 1 else 0)
  | integer i => if i.natAbs < integerLimit then .ok (Scalar.ofRat i) else .error .tooLarge
  | text s =>
    match Numeral.read? s with
    | some n => .ok n.toScalar
    | none => .error .badValue
  | absent | list _ => .error .wrongKind

/-- The scalar a literal stands for in arithmetic, where texts do not convert. -/
def toAddend : Literal α → Except (Fault α) α
  | text _ => .error .wrongKind
  | v => v.toScalar

/-- Whether one literal is less than another: numbers by value, texts by code points. -/
def less : Literal α → Literal α → Except (Fault α) Bool
  | text s, text t => .ok (decide (s < t))
  | x, y =>
    match x.numeric?, y.numeric? with
    | some a, some b => .ok (a.lt b)
    | _, _ => .error .wrongKind

/-- An optional bound, with the value of an absent one. -/
def toBound (missing : α) : Literal α → Except (Fault α) α
  | absent => .ok missing
  | v => v.toScalar

end Literal

end RobustOpt
