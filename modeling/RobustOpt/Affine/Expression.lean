import RobustOpt.Affine.Form

/-!
# Affine expressions

Affine expressions over columns, kept as they were written so that they can be printed, and the
linear form each of them stands for.

## Main definitions

* `Affine`: the expressions.
* `Affine.text`: the written form.
* `Affine.form`: the linear form.
-/

namespace RobustOpt

inductive Affine (α : Type) where
  | constant (c : α)
  | column (name : String) (c : Column)
  | neg (e : Affine α)
  | add (e f : Affine α)
  | scale (c : α) (e : Affine α)
  | scaleRight (e : Affine α) (c : α)
  | divide (e : Affine α) (c : α)

namespace Affine

variable {α : Type}

/-- Whether the expression stands between parentheses as a factor. -/
def isCompound : Affine α → Bool
  | add _ _ | divide _ _ => true
  | _ => false

/-- The written form, `shown` being that of a scalar. Sums are written without parentheses. -/
def text (shown : α → String) : Affine α → String
  | constant c => shown c
  | column name _ => name
  | neg e => "-" ++ e.text shown
  | add e f => e.text shown ++ " + " ++ f.text shown
  | scale c e => shown c ++ " * " ++ factor (e.text shown) e
  | scaleRight e c => factor (e.text shown) e ++ " * " ++ shown c
  | divide e c => factor (e.text shown) e ++ " / " ++ shown c
where
  /-- Put a compound factor between parentheses. -/
  factor (written : String) (e : Affine α) : String :=
    if e.isCompound then "(" ++ written ++ ")" else written

variable [Scalar α]

def form : Affine α → LinearForm α
  | constant c => ⟨c, []⟩
  | column _ c => ⟨0, [(c, 1)]⟩
  | neg e => e.form.neg
  | add e f => e.form.add f.form
  | scale c e => e.form.scale c
  | scaleRight e c => e.form.scale c
  | divide e c => e.form.divide c

/-- The constant plus a multiple of each column, written in this order. -/
def combination (c : α) (terms : List (α × String × Column)) : Affine α :=
  terms.foldl (fun e t => add e (scale t.1 (column t.2.1 t.2.2))) (constant c)

end Affine

end RobustOpt
