import RobustOpt.Affine.Column
import RobustOpt.Scalar.Basic

/-!
# Linear forms

A constant and a list of coefficients of columns, in which a column may occur repeatedly and with
coefficient zero.

## Main definitions

* `LinearForm`: the forms, with negation, sums and multiples.
* `LinearForm.collected`: the coefficients summed per column, by creation of the columns.
* `Valuation`: current values of columns.
-/

namespace RobustOpt

structure LinearForm (α : Type) where
  constant : α
  terms : List (Column × α)

/-- The current values of columns; a column may have none. -/
abbrev Valuation (α : Type) := Column → Option α

namespace LinearForm

variable {α : Type} [Scalar α]

def neg (f : LinearForm α) : LinearForm α :=
  ⟨-f.constant, f.terms.map fun t => (t.1, -t.2)⟩

def add (f g : LinearForm α) : LinearForm α := ⟨f.constant + g.constant, f.terms ++ g.terms⟩

def scale (c : α) (f : LinearForm α) : LinearForm α :=
  ⟨c * f.constant, f.terms.map fun t => (t.1, c * t.2)⟩

def divide (f : LinearForm α) (c : α) : LinearForm α :=
  ⟨f.constant / c, f.terms.map fun t => (t.1, t.2 / c)⟩

/-- Add a coefficient to the one its column has, or at the end. -/
def insert (c : Column) (x : α) : List (Column × α) → List (Column × α)
  | [] => [(c, x)]
  | (d, y) :: rest => if c = d then (d, y + x) :: rest else (d, y) :: insert c x rest

/-- The coefficients summed per column, ordered by creation of the columns. -/
def collected (f : LinearForm α) : LinearForm α where
  constant := f.constant
  terms := Column.inOrder Prod.fst (f.terms.foldl (fun ts t => insert t.1 t.2 ts) [])

/-- The columns that occur, also with coefficient zero. -/
def columns (f : LinearForm α) : List Column := f.terms.map Prod.fst

@[simp] theorem columns_neg (f : LinearForm α) : f.neg.columns = f.columns := by
  simp [neg, columns, Function.comp_def]

@[simp] theorem columns_add (f g : LinearForm α) :
    (f.add g).columns = f.columns ++ g.columns := by
  simp [add, columns]

@[simp] theorem columns_scale (c : α) (f : LinearForm α) : (f.scale c).columns = f.columns := by
  simp [scale, columns, Function.comp_def]

/-- The value at given values of the columns, none if a column has no value. -/
def value? (v : Valuation α) (f : LinearForm α) : Option α :=
  f.terms.foldlM (fun acc t => (v t.1).map fun x => acc + t.2 * x) f.constant

end LinearForm

end RobustOpt
