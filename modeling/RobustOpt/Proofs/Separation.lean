import RobustOpt.Proofs.Extremes
import RobustOpt.Proofs.Rounds

/-!
# Cuts separate

A round of cuts separates the present values of the decision variables from those at which the
constraints hold for all values of the parameters: it answers one cut for each side whose worst
case exceeds the right side by more than the tolerance, and nothing else. The worst case is
computed from the coefficients of the parameters and the cut from those of the decision variables.
Both describe the side at the same values of the parameters, also where some of these are left
free.

## Main definitions

* `Model.IsWorst`: the greatest value of a side at a point.
* `Model.Separates`: a cut of a side at a point.
* `Model.Answers`: what a round answers for a side.

## Main statements

* `UncertaintySet.HasData.maximizes`: which sets have worst cases that are right.
* `CuttingPlane.exists_answer`: every side is answered.
* `UncertaintySet.cuts_separate`: a round answers side by side.
-/

namespace RobustOpt

open Bilinear

/-! ## Answers -/

namespace Model

variable (model : Model Extended) (U : (ℕ → ℚ) → Prop)

/-- The greatest value of a side at a point for values of the parameters in `U`. -/
def IsWorst (p : SparseMatrix Extended × Extended × Extended) (y : Point) (worst : ℚ) : Prop :=
  IsGreatest {b | ∃ u, U u ∧ model.sideAt p.1 p.2 u y = b} worst

/-- A cut of a side: at a point its left side has a given value, and it holds wherever the side
holds for all values of the parameters in `U`. -/
structure Separates (p : SparseMatrix Extended × Extended × Extended) (y : Point) (value : ℚ)
    (k : LinearConstraint Extended) : Prop where
  within : k.Within (Decision.Owns model.decisions)
  cuts : ∃ e, k = .atMost e (.constant p.2.2) ∧ e.eval y.exact = .finite value
  valid : ∀ x : Point, (∀ u, U u → model.sideAt p.1 p.2 u x ≤ p.2.2.rat) → k.Holds x.exact

/-- What a round of cuts at a point answers for a side: a cut if its worst case exceeds the right
side by more than the tolerance, and nothing otherwise. -/
def Answers (τ : Extended) (y : Point) (p : SparseMatrix Extended × Extended × Extended)
    (r : Option (LinearConstraint Extended)) : Prop :=
  ∃ worst, model.IsWorst U p y worst ∧
    if τ.lt (.finite (worst - p.2.2.rat)) then ∃ k, r = some k ∧ model.Separates U p y worst k
    else r = none

end Model

namespace CuttingPlane

variable {plane : CuttingPlane Extended} {model : Model Extended} {g : Geometry Extended}
  {A : ℕ → Prop} {U : (ℕ → ℚ) → Prop}

/-- Every side whose worst case is known is answered. -/
theorem exists_answer (hg : g.Maximizes model.parameters.length A U) {τ : Extended}
    (hτ : plane.cutTol.numeric? = some τ) {q : SparseMatrix Extended}
    (hq : Shaped q model.parameters.length model.decisions.length)
    (hA : OnlyUses q model.parameters.length A) {side : Extended × Extended}
    (hside : IsSign side.1 ∧ Scalar.isFinite side.2 = true) {values : Valuation Extended}
    (hfin : values.Finite)
    (hworst : ∃ u, g.worstCase (sensitivity q side.1 (model.point values)).1 = .ok u)
    (hsharp : plane.SharpCut g q side.1 side.2 (model.point values)) :
    ∃ r, plane.sideCut g model q side.1 side.2 (model.point values) = .ok r
      ∧ model.Answers U τ values.point (q, side) r := by
  obtain ⟨sign, rhs⟩ := side
  obtain ⟨hsign, hrhs⟩ := hside
  obtain ⟨b, rfl⟩ := Extended.isFinite_iff.mp hrhs
  obtain ⟨u, v, hu, huv, hv, hmax⟩ :=
    hg.exists_worst_at hA hq hsign.isFinite hfin hworst
  rw [Model.point_eq model hfin] at hsharp ⊢
  obtain ⟨r, hr, hcases⟩ := exists_sideCut hτ hq hsign.isFinite hsharp hu huv
  refine ⟨r, hr, model.sideAt q (sign, .finite b) v values.point, ⟨⟨v, hv, rfl⟩, ?_⟩, ?_⟩
  · rintro _ ⟨w, hw, rfl⟩
    exact hmax w hw
  · rcases hcases with ⟨hlt, rfl⟩ | ⟨hlt, e, rfl, hwithin, heval⟩
    · have : ¬ τ.lt (.finite (model.sideAt q (sign, .finite b) v values.point - b)) = true := by
        rw [Model.sideAt, hlt]
        decide
      exact (if_neg this).mpr rfl
    · refine (if_pos hlt).mpr ?_
      refine ⟨_, rfl, ?_, ⟨e, rfl, heval _⟩, fun x hx => ?_⟩
      · simpa [LinearConstraint.Within, LinearConstraint.atMost]
      · have hle : valueAt q model.parameters.length model.decisions.length sign.rat v
            (Decision.valuesAt model.decisions x) ≤ b := hx v hv
        simpa [LinearConstraint.Holds, LinearConstraint.atMost, Relation.holds, Affine.eval,
          heval] using hle

end CuttingPlane

namespace UncertaintySet

variable {s s' : UncertaintySet Extended} {model : Model Extended} {prefs : Preferences Extended}

/-- The worst cases of boxes, of budget sets and, with an exact solver, of all polyhedral sets are
right once a set holds its data. -/
theorem HasData.maximizes (h : s.HasData model) (hs : s.Checked) {solver : Solver Extended}
    (hkind : s.HasExtremes ∨ solver.Exact) (hne : ∃ u, s.Region model u)
    (hbounds : ∀ p ∈ model.parameters, Scalar.lt p.upper p.lower = false) :
    (s.geometryWith solver).Maximizes model.parameters.length (s.Usable model)
      (s.Region model) := by
  cases s with
  | bare | scripted => cases h
  | polyhedral plane d => exact Polyhedral.maximizes_geometry hkind h hne
  | budget plane b => exact Budget.maximizes_geometry hs h hbounds

/-- After the setup of a set that is not empty, be it a box, a budget set or, with an exact solver,
any polyhedral set, a round of cuts answers the registered constraints side by side, that of the
upper bound first. If the coefficients are rational and no worst case is refused, it answers one cut
for each side that its worst case violates by more than the tolerance, and nothing for the
others. Bounds of parameters do not cross, which is checked when a parameter is made. -/
theorem cuts_separate {report : Bool} {r : Unit} {solver : Solver Extended} {τ : Extended}
    {plane : CuttingPlane Extended} {values : Valuation Extended} {is : List ℤ}
    (hsetup : (setup model report prefs).Yields s r s') (hgeo : s.IsGeometric) (hs : s.Checked)
    (hkind : s.HasExtremes ∨ solver.Exact) (hne : ∃ u, s.Region model u)
    (hbounds : ∀ p ∈ model.parameters, Scalar.lt p.upper p.lower = false)
    (hτ : (prefs.get Preferences.cutTol (.real Scalar.cutTol)).numeric? = some τ)
    (hplane : s'.plane? = some plane) (hforms : ∀ p ∈ plane.forms, p.2.Finite)
    (his : ∀ i ∈ is, i ∈ plane.indices) (hfin : values.Finite)
    (hworst : ∀ p ∈ model.sidesAlong is, ∃ u, (s'.geometryWith solver).worstCase
      (sensitivity p.1 p.2.1 (model.point values)).1 = .ok u)
    (hsharp : ∀ p ∈ model.sidesAlong is,
      plane.SharpCut (s'.geometryWith solver) p.1 p.2.1 p.2.2 (model.point values)) :
    ∃ rs, (cuts model values is solver).Yields s' rs.reduceOption s'
      ∧ List.Forall₂ (model.Answers (s.Region model) τ values.point) (model.sidesAlong is) rs := by
  have hset := (yields_setup hgeo).mp hsetup
  have hcore := hset.core_eq
  have hdata := hset.hasData hs
  obtain ⟨-, plane', -, hplane', hprep, -, -, htol⟩ := hset.plane_spec
  obtain rfl := Option.some.inj (hplane.symm.trans hplane')
  rw [← region_eq_of_core hcore] at hne ⊢
  have hmax := hdata.maximizes ((checked_of_core hcore).mpr hs)
    (hkind.imp_left (hasExtremes_of_core hcore).mpr) hne hbounds
  have hanswer : ∀ i ∈ is, ∀ q, (i, q) ∈ plane.forms → ∀ side, (q, side) ∈ model.sidesAt i →
      ∃ r, plane.sideCut (s'.geometryWith solver) model q side.1 side.2 (model.point values)
          = .ok r ∧ model.Answers (s'.Region model) τ values.point (q, side) r := by
    intro i hi q hq side hside
    have hmem : (q, side) ∈ model.sidesAlong is := List.mem_flatMap.mpr ⟨i, hi, hside⟩
    obtain ⟨c, hc, hmatrix⟩ := hprep.of_mem hq
    have hshape := Mixed.shaped_coefficientMatrix hmatrix (hforms _ hq)
    rw [Model.sidesAt_eq hc hmatrix] at hside
    obtain ⟨_, hsides, heq⟩ := List.mem_map.mp hside
    obtain ⟨-, rfl⟩ := Prod.mk.inj heq
    exact CuttingPlane.exists_answer hmax (htol ▸ hτ) hshape (hdata.onlyUses hplane hq hshape)
      (Bounded.sides_spec hsides) hfin (hworst _ hmem) (hsharp _ hmem)
  obtain ⟨rs, hcuts, hR⟩ := CuttingPlane.exists_cuts hprep his hanswer
  exact ⟨rs, (yields_cuts hplane).mpr ⟨hcuts, rfl⟩, hR⟩

end UncertaintySet

/-! ## A constraint with two sides -/

namespace Ferry

def trips : Decision Extended :=
  ⟨0, 0, "x", .finite 0, .posInf, ⟨0, none, .decision 0, false, false⟩⟩

def stops : Decision Extended :=
  ⟨0, 1, "y", .finite 0, .posInf, ⟨1, none, .decision 1, false, false⟩⟩

/-- A fare between one and two. -/
def fare : Parameter Extended := ⟨0, 0, .text "u", .finite 1, .finite 2⟩

/-- A toll without bounds. -/
def toll : Parameter Extended := ⟨0, 1, .text "v", .negInf, .posInf⟩

/-- Fares and tolls of the trips and stops amount to at least one and at most three. -/
def takings : UncertainConstraint Extended :=
  ⟨⟨[(trips, ⟨[(fare, 1)], 0⟩), (stops, ⟨[(toll, 1)], 0⟩)], ⟨[], 0⟩⟩, .finite 1, .finite 3⟩

def model : Model Extended where
  id := 0
  defaultSet := 0
  decisions := [trips, stops]
  parameters := [fare, toll]
  certain := []
  uncertain := [⟨0, takings⟩]
  assignment := []
  objective := .feasibility
  result := none

def form : SparseMatrix Extended := ⟨[[(0, 1)], [(1, 1)], []], 3⟩

/-- Two trips and no stop. -/
def values : Valuation Extended := fun c => some (if c.serial = 0 then .finite 2 else 0)

theorem finite_values : values.Finite := by
  intro c x hx
  obtain rfl := Option.some.inj hx
  split_ifs <;> rfl

def prefs : Preferences Extended := [(Preferences.cutTol, .integer 0)]

def responsible : UncertaintySet Extended := .registered 0 .newPolyhedral [0]

theorem matrix_eq : takings.expr.coefficientMatrix 2 2 = .ok form :=
  SparseMatrix.eq_ok_of_rows (by decide +kernel)

theorem sidesAlong_eq : model.sidesAlong [0]
    = [(form, .finite 1, .finite 3), (form, .finite (-1), .finite (-1))] := by
  have h : model.sidesAt 0 = takings.sides.map fun side => (form, side) :=
    Model.sidesAt_eq rfl matrix_eq
  rw [Model.sidesAlong, List.flatMap_singleton, h]
  rfl

theorem region_iff {u : ℕ → ℚ} : responsible.Region model u ↔ 1 ≤ u 0 ∧ u 0 ≤ 2 := by
  refine (Polyhedral.region_of_isBox rfl).trans ⟨fun h => ?_, fun h i hi => ?_⟩
  · simpa [Between, model, fare, Model.parameterBounds] using h 0 Nat.zero_lt_two
  · obtain rfl | rfl : i = 0 ∨ i = 1 := Nat.le_one_iff_eq_zero_or_eq_one.mp (Nat.le_of_lt_succ hi)
    · simpa [Between, model, fare, Model.parameterBounds] using h
    · exact ⟨rfl, rfl⟩

theorem sideAt_eq (s b : Extended) (u : ℕ → ℚ) :
    model.sideAt form (s, b) u values.point = s.rat * (u 0 * 2) := by
  simp [Model.sideAt, valueAt, model, form, SparseMatrix.coef, SparseMatrix.entry, withOne,
    Finset.sum_range_succ, Decision.valuesAt, values, Valuation.point, trips, stops]

/-- The state of the set after its setup, with a polyhedron that is not looked at. -/
def prepared (p : Polyhedron Extended) : UncertaintySet Extended :=
  .polyhedral ⟨some 0, [0], [(0, form)], .truth false, .integer 0⟩
    ⟨[], some model.parameterBounds, some p, false, .absent⟩

/-- The preferences and the form are taken. -/
theorem exists_setup : ∃ p, UncertaintySet.SetUp model prefs responsible (prepared p) := by
  refine ⟨_, [(0, form)], _, ?_, Polyhedral.polyhedronOf_of_isBox rfl _ _ _, rfl⟩
  exact mapM_eq_ok.mpr (.cons (CuttingPlane.formsOf_step.mpr ⟨rfl, _, rfl, matrix_eq⟩) .nil)

/-- The worst fare is the greatest one for the upper bound and the least one for the other, and the
toll is left free. -/
theorem exists_worstCase (p : Polyhedron Extended) (solver : Solver Extended) {side}
    (hside : side ∈ model.sidesAlong [0]) : ∃ u, ((prepared p).geometryWith solver).worstCase
        (sensitivity side.1 side.2.1 (model.point values)).1 = .ok u
      ∧ ∀ k ∈ substitute side.1 side.2.1 (u.map Scalar.toFinite), Scalar.isSharp k = true := by
  have hbox : ((prepared p).geometryWith solver).worstCase
      = Polyhedral.boxVertex [.finite 1, .negInf] [.finite 2, .posInf] := rfl
  rw [hbox]
  rw [sidesAlong_eq] at hside
  obtain rfl | rfl : side = (form, .finite 1, .finite 3)
      ∨ side = (form, .finite (-1), .finite (-1)) := by simpa using hside
  · exact ⟨[.finite 2, .undefined], toOption_eq_some.mp (by decide +kernel), by decide +kernel⟩
  · exact ⟨[.finite 1, .undefined], toOption_eq_some.mp (by decide +kernel), by decide +kernel⟩

theorem sharpCut (p : Polyhedron Extended) (solver : Solver Extended)
    (plane : CuttingPlane Extended) {side} (hside : side ∈ model.sidesAlong [0]) :
    plane.SharpCut ((prepared p).geometryWith solver) side.1 side.2.1 side.2.2
      (model.point values) := by
  intro u lhs h _
  obtain ⟨u', hu, hsharp⟩ := exists_worstCase p solver hside
  obtain rfl := Except.ok.inj (hu.symm.trans (CuttingPlane.worstCase_of_sideWorstCase h))
  exact hsharp

/-- The takings of two trips are at most four. -/
theorem upper_eq {worst : ℚ} (h : model.IsWorst (responsible.Region model)
    (form, .finite 1, .finite 3) values.point worst) : worst = 4 := by
  obtain ⟨⟨u, hu, rfl⟩, hmax⟩ := h
  have hle := hmax ⟨fun _ => 2, region_iff.mpr ⟨by norm_num, le_rfl⟩, rfl⟩
  have := (region_iff.mp hu).2
  simp only [sideAt_eq, Extended.rat_finite] at hle ⊢
  linarith

/-- The takings of two trips are at least two. -/
theorem lower_eq {worst : ℚ} (h : model.IsWorst (responsible.Region model)
    (form, .finite (-1), .finite (-1)) values.point worst) : worst = -2 := by
  obtain ⟨⟨u, hu, rfl⟩, hmax⟩ := h
  have hle := hmax ⟨fun _ => 1, region_iff.mpr ⟨le_rfl, by norm_num⟩, rfl⟩
  have := (region_iff.mp hu).1
  simp only [sideAt_eq, Extended.rat_finite] at hle ⊢
  linarith

end Ferry

/-- The upper bound is cut off for two trips, and the lower one is not. -/
theorem ferry_cuts_separate : ∃ s k,
    (UncertaintySet.setup Ferry.model false Ferry.prefs).Yields Ferry.responsible ⟨⟩ s
    ∧ (UncertaintySet.cuts Ferry.model Ferry.values [0] (.ofTable [])).Yields s [k] s
    ∧ Ferry.model.Separates (Ferry.responsible.Region Ferry.model)
      (Ferry.form, .finite 1, .finite 3) Ferry.values.point 4 k := by
  obtain ⟨p, hset⟩ := Ferry.exists_setup
  have hsetup : (UncertaintySet.setup Ferry.model false Ferry.prefs).Yields Ferry.responsible ⟨⟩
      (Ferry.prepared p) := (UncertaintySet.yields_setup (s := Ferry.responsible) rfl).mpr hset
  obtain ⟨rs, hcuts, hR⟩ : ∃ rs : List (Option (LinearConstraint Extended)),
      (UncertaintySet.cuts Ferry.model Ferry.values [0] (.ofTable [])).Yields (Ferry.prepared p)
        rs.reduceOption (Ferry.prepared p)
      ∧ List.Forall₂ (Ferry.model.Answers (Ferry.responsible.Region Ferry.model) 0
        Ferry.values.point) (Ferry.model.sidesAlong [0]) rs :=
    UncertaintySet.cuts_separate hsetup rfl trivial (.inl rfl)
      ⟨fun _ => 1, Ferry.region_iff.mpr ⟨le_rfl, by norm_num⟩⟩ (by decide +kernel) rfl rfl
      (by simp [SparseMatrix.Finite, Ferry.form]) (by simp) Ferry.finite_values
      (fun side hside => (Ferry.exists_worstCase p _ hside).imp fun _ => And.left)
      (fun side hside => Ferry.sharpCut p _ _ hside)
  rw [Ferry.sidesAlong_eq] at hR
  cases hR with
  | cons hupper hR =>
    cases hR with
    | cons hlower hR =>
      cases hR
      obtain ⟨worst, hworst, hupper⟩ := hupper
      obtain rfl := Ferry.upper_eq hworst
      obtain ⟨worst, hworst, hlower⟩ := hlower
      obtain rfl := Ferry.lower_eq hworst
      rw [if_pos (by decide +kernel)] at hupper
      rw [if_neg (by decide +kernel)] at hlower
      obtain ⟨k, rfl, hk⟩ := hupper
      subst hlower
      exact ⟨_, k, hsetup, hcuts, hk⟩

end RobustOpt
