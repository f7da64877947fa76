import RobustOpt.Model.Workspace
import RobustOpt.Proofs.UncertaintySet

/-!
# Robust feasibility

A point is robust feasible for a model of a workspace if it satisfies the linear part of the model
and every uncertain constraint holds at it for all values the responsible set allows. Resolutions
are judged by these points.

## Main definitions

* `Workspace.RobustFeasible`: the points a resolution looks for.
* `Workspace.Sound`: what is asked of the data of a model and its sets.
* `Model.HoldsWithin`: an uncertain constraint holds up to a tolerance.
-/

namespace RobustOpt

open Bilinear

/-- The columns that belong to a model: those of its decision variables and of its linear part. -/
def Model.Involves (model : Model Extended) (d : Column) : Prop :=
  Decision.Owns model.decisions d ∨ d ∈ model.master.columns

/-- All sides of the uncertain constraint at an index hold for all values of the parameters in `U`
up to the tolerance `τ`. -/
def Model.HoldsWithin (model : Model Extended) (τ : Extended) (U : (ℕ → ℚ) → Prop) (y : Point)
    (i : ℤ) : Prop :=
  ∀ c q, model.constraint? i = .ok c →
    c.expr.coefficientMatrix model.parameters.length model.decisions.length = .ok q →
    ∀ side ∈ c.sides, ∀ u, U u →
      Scalar.le (.finite (valueAt q model.parameters.length model.decisions.length side.1.rat u
        (Decision.valuesAt model.decisions y))) (side.2 + τ) = true

namespace Workspace

/-- The values of the parameters that the set responsible for a constraint allows. -/
def regionFor (w : Workspace Extended) (model : Model Extended) (i : ℕ) : (ℕ → ℚ) → Prop :=
  (w.uncertaintySet (model.setFor i)).Region model

/-- A point that satisfies the linear part of a model, gives every decision variable a value of its
kind, and satisfies the uncertain constraints for all values of the parameters. -/
structure RobustFeasible (w : Workspace Extended) (model : Model Extended) (x : Point) : Prop where
  certain : model.master.Satisfied x
  admits : ∀ d, Decision.Owns model.decisions d → d.Admits (x d)
  robust : ∀ i < model.uncertain.length, model.HoldsRobustly (w.regionFor model i) x i

/-- The uncertain constraints are owned by polyhedral or budget sets with rational data that are
not empty, bounds do not cross, the columns of the model come from the supply of the workspace, and
present values of the decision variables are values they admit. -/
structure Sound (w : Workspace Extended) (model : Model Extended) : Prop where
  geometric : ∀ i < model.uncertain.length, (w.uncertaintySet (model.setFor i)).IsGeometric
  wellFormed : ∀ i < model.uncertain.length, (w.uncertaintySet (model.setFor i)).WellFormed model
  inhabited : ∀ i < model.uncertain.length, ∃ u, w.regionFor model i u
  bounds : ∀ p ∈ model.parameters, Scalar.lt p.upper p.lower = false
  serial : ∀ d, model.Involves d → d.serial < w.supply.serial
  finite : w.values.Finite
  admits : ∀ d, Decision.Owns model.decisions d → d.Admits (w.values.point d)

end Workspace

variable {model : Model Extended} {U : (ℕ → ℚ) → Prop}

/-- Without tolerance a constraint holds exactly. -/
theorem Model.holdsWithin_zero {y : Point} {i : ℤ} :
    model.HoldsWithin 0 U y i ↔ model.HoldsRobustly U y i := by
  refine forall₂_congr fun c q => forall₂_congr fun _ _ => forall₂_congr fun side hside =>
    forall₂_congr fun u _ => ?_
  obtain ⟨r, hr⟩ := Extended.isFinite_iff.mp (Bounded.sides_spec hside).2
  rw [hr, Extended.zero_eq, Extended.finite_add, add_zero, Extended.le_finite, decide_eq_true_eq,
    Extended.rat_finite]

/-- What holds exactly holds within any tolerance that is not negative. -/
theorem Model.HoldsRobustly.within {τ : Extended} (hτ : Scalar.le 0 τ = true) {y : Point} {i : ℤ}
    (h : model.HoldsRobustly U y i) : model.HoldsWithin τ U y i := by
  intro c q hc hq side hside u hu
  have hle := h c q hc hq side hside u hu
  obtain ⟨r, hr⟩ := Extended.isFinite_iff.mp (Bounded.sides_spec hside).2
  rw [hr, Extended.rat_finite] at hle
  rw [hr]
  cases τ with
  | finite t =>
    rw [Extended.zero_eq, Extended.le_finite, decide_eq_true_eq] at hτ
    rw [Extended.finite_add, Extended.le_finite, decide_eq_true_eq]
    linarith
  | posInf => rfl
  | negInf | undefined => cases hτ

end RobustOpt
