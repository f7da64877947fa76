import RobustOpt.Expression.Symbol
import RobustOpt.Sparse.Accumulator

/-!
# Expressions in uncertain parameters

Affine expressions in the uncertain parameters: a list of terms as they were added, in which a
parameter may occur repeatedly, and a constant.

## Main definitions

* `Uncertain`: the expressions.
* `Uncertain.value`: the value at given values of the parameters.
* `Uncertain.collect`: one coefficient per parameter, in the order of first appearance.
-/

namespace RobustOpt

structure Uncertain (α : Type) where
  terms : List (Parameter α × α)
  constant : α

namespace Uncertain

variable {α : Type} [Scalar α]

def ofConstant (c : α) : Uncertain α := ⟨[], c⟩

def ofParameter (p : Parameter α) : Uncertain α := ⟨[(p, 1)], 0⟩

/-- An expression from lists of parameters and coefficients. The coefficients are converted
before the lengths are compared, the constant afterwards. -/
def build (parameters : List (Parameter α)) (coefficients : List (Literal α))
    (constant : Literal α) : Except (Fault α) (Uncertain α) := do
  let cs ← coefficients.mapM Literal.toScalar
  if parameters.length ≠ cs.length then
    throw (.lengthMismatch "parameters" parameters.length cs.length)
  return ⟨parameters.zip cs, ← constant.toScalar⟩

/-- Whether no parameter occurs, not even with coefficient zero. -/
def isConstant (e : Uncertain α) : Bool := e.terms.isEmpty

/-- The model of the first parameter. -/
def model? (e : Uncertain α) : Option Nat := e.terms.head?.map fun t => t.1.model

def add (e f : Uncertain α) : Uncertain α := ⟨e.terms ++ f.terms, e.constant + f.constant⟩

def scale (e : Uncertain α) (c : α) : Uncertain α :=
  ⟨e.terms.map fun t => (t.1, t.2 * c), e.constant * c⟩

def neg (e : Uncertain α) : Uncertain α := e.scale (-1)

omit [Scalar α] in
@[simp] theorem isConstant_ofConstant (c : α) : (ofConstant c).isConstant = true := rfl

@[simp] theorem isConstant_add (e f : Uncertain α) :
    (e.add f).isConstant = (e.isConstant && f.isConstant) := by
  cases he : e.terms <;> simp [add, isConstant, he]

@[simp] theorem isConstant_scale (e : Uncertain α) (c : α) :
    (e.scale c).isConstant = e.isConstant := by
  simp [scale, isConstant, List.isEmpty_map]

/-- The expression without its constant. -/
def homogeneous (e : Uncertain α) : Uncertain α := ⟨e.terms, 0⟩

/-- The product of two expressions, of which one has to be constant. -/
def mul (e f : Uncertain α) : Except (Fault α) (Uncertain α) :=
  if e.isConstant then .ok (f.scale e.constant)
  else if f.isConstant then .ok (e.scale f.constant)
  else .error .uncertainProduct

/-- The value at a vector of parameter values, indexed by position. -/
def value (e : Uncertain α) (values : List (Literal α)) : Except (Fault α) α :=
  e.terms.foldlM (fun acc t =>
    match values[t.1.index]? with
    | none => .error .indexOutOfRange
    | some v => do return acc + t.2 * (← v.toAddend)) e.constant

/-- The size an accumulator needs for the parameters of an expression. -/
def span (e : Uncertain α) : Nat := e.terms.foldl (fun n t => max n (t.1.index + 1)) 0

/-- Consolidate like terms in a scratch accumulator, which is cleared before and afterwards. An
expression without terms does not touch it. -/
def collectIn (e : Uncertain α) :
    Action (Accumulator α) (Fault α) (List (Nat × α)) := do
  if e.terms.isEmpty then return []
  modify Accumulator.clear
  e.terms.forM fun t => Accumulator.add t.1.index (.real t.2)
  let items := (← get).items
  modify Accumulator.clear
  return items.map fun p => (p.1.toNat, p.2)

/-- One coefficient per parameter, negligible ones dropped, in the order in which the parameters
first appear. -/
def collect (e : Uncertain α) : List (Nat × α) :=
  match (e.collectIn.perform (Accumulator.empty e.span)).1 with
  | .ok items => items
  | .error _ => []

end Uncertain

end RobustOpt
