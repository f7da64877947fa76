import RobustOpt.Proofs.Geometry

/-!
# Reformulation and cuts of a set

The loops of a set over its constraints and their sides. A reformulation adds constraints that
encode all sides of all constraints it was given. A round of cuts looks at every side and answers
the cuts of those that are violated.

## Main definitions

* `Model.HoldsRobustly`: an uncertain constraint holds for all values in a set.
* `Model.sidesAlong`: the sides of constraints in the order in which they are treated.
* `CuttingPlane.Prepared`: forms and indices of a set after its setup.

## Main statements

* `CuttingPlane.exists_reform`: what a reformulation adds.
* `CuttingPlane.cuts_spec`: which sides a round of cuts looked at.
* `CuttingPlane.exists_cuts`: a round of cuts answers side by side.
-/

namespace RobustOpt

open Bilinear

/-- The uncertain constraint at a position. -/
theorem Model.constraint?_natCast {α : Type} {model : Model α} {i : ℕ}
    (hi : i < model.uncertain.length) :
    model.constraint? i = .ok (model.uncertain[i]).constraint := by
  simp [Model.constraint?, Position.find?_natCast hi, hi]

/-- All sides of the uncertain constraint at an index hold for all values of the parameters in
`U`. -/
def Model.HoldsRobustly (model : Model Extended) (U : (ℕ → ℚ) → Prop) (y : Point) (i : ℤ) : Prop :=
  ∀ c q, model.constraint? i = .ok c →
    c.expr.coefficientMatrix model.parameters.length model.decisions.length = .ok q →
    ∀ side ∈ c.sides, ∀ u, U u →
      valueAt q model.parameters.length model.decisions.length side.1.rat u
      (Decision.valuesAt model.decisions y) ≤ side.2.rat

theorem Model.holdsRobustly_iff {model : Model Extended} {U : (ℕ → ℚ) → Prop} {y : Point} {i : ℤ}
    {c : UncertainConstraint Extended} {q : SparseMatrix Extended}
    (hc : model.constraint? i = .ok c)
    (hq : c.expr.coefficientMatrix model.parameters.length model.decisions.length = .ok q) :
    model.HoldsRobustly U y i ↔ ∀ side ∈ c.sides, ∀ u, U u →
      valueAt q model.parameters.length model.decisions.length side.1.rat u
        (Decision.valuesAt model.decisions y) ≤ side.2.rat := by
  refine ⟨fun h => h c q hc hq, fun h c' q' hc' hq' => ?_⟩
  obtain rfl := Except.ok.inj (hc.symm.trans hc')
  obtain rfl := Except.ok.inj (hq.symm.trans hq')
  exact h

theorem Model.HoldsRobustly.congr {model : Model Extended} {U : (ℕ → ℚ) → Prop} {x y : Point}
    (h : ∀ d, Decision.Owns model.decisions d → x d = y d) {i : ℤ} :
    model.HoldsRobustly U x i ↔ model.HoldsRobustly U y i := by
  simp only [HoldsRobustly, Decision.valuesAt_congr h]

/-- The sides of the uncertain constraint at an index with its form, that of the upper bound
first. -/
def Model.sidesAt (model : Model Extended) (i : ℤ) :
    List (SparseMatrix Extended × Extended × Extended) :=
  match model.constraint? i with
  | .error _ => []
  | .ok c =>
    match c.expr.coefficientMatrix model.parameters.length model.decisions.length with
    | .error _ => []
    | .ok q => c.sides.map fun side => (q, side)

/-- The sides of the uncertain constraints at indices, one constraint after the other. -/
def Model.sidesAlong (model : Model Extended) (is : List ℤ) :
    List (SparseMatrix Extended × Extended × Extended) := is.flatMap model.sidesAt

theorem Model.sidesAt_eq {model : Model Extended} {i : ℤ} {c : UncertainConstraint Extended}
    {q : SparseMatrix Extended} (hc : model.constraint? i = .ok c)
    (hq : c.expr.coefficientMatrix model.parameters.length model.decisions.length = .ok q) :
    model.sidesAt i = c.sides.map fun side => (q, side) := by
  simp [sidesAt, hc, hq]

namespace CuttingPlane

variable {plane : CuttingPlane Extended} {model : Model Extended} {g : Geometry Extended}
  {A : ℕ → Prop} {U : (ℕ → ℚ) → Prop}

/-! ## Registration -/

/-- A registration leaves the model and the index noted, and keeps what the model had. -/
theorem register_spec {α : Type} (p : CuttingPlane α) (model : ℕ) (i : ℤ) :
    (p.register model i).model = some model ∧ i ∈ (p.register model i).indices
      ∧ (p.model = some model → ∀ j ∈ p.indices, j ∈ (p.register model i).indices) := by
  unfold register
  by_cases hm : p.model = some model
  · rw [if_pos hm]
    by_cases hi : p.indices.contains i = true
    · rw [if_pos hi]
      exact ⟨hm, by simpa using hi, fun _ j hj => hj⟩
    · rw [if_neg hi]
      exact ⟨hm, by simp, fun _ j hj => by simp [hj]⟩
  · simp [hm]

/-- Registered indices are kept. -/
theorem mem_indices_foldl_register {α : Type} (model : ℕ) (is : List ℤ) (p : CuttingPlane α) :
    (∀ i ∈ is, i ∈ (is.foldl (fun p i => p.register model i) p).indices)
      ∧ (p.model = some model →
        ∀ j ∈ p.indices, j ∈ (is.foldl (fun p i => p.register model i) p).indices) := by
  induction is generalizing p with
  | nil => simp
  | cons i is ih =>
    obtain ⟨hmodel, hmem, hkeep⟩ := register_spec p model i
    obtain ⟨hlater, hold⟩ := ih (p.register model i)
    refine ⟨fun j hj => ?_, fun hp j hj => hold hmodel j (hkeep hp j hj)⟩
    rcases List.mem_cons.mp hj with rfl | hj
    exacts [hold hmodel _ hmem, hlater j hj]

/-! ## Forms -/

/-- The forms of a set are those of the constraints registered to it. -/
def Prepared (plane : CuttingPlane Extended) (model : Model Extended) : Prop :=
  plane.formsOf model = .ok plane.forms

theorem formsOf_step {i : ℤ} {p : ℤ × SparseMatrix Extended} :
    (do
      let c ← model.constraint? i
      return (i, ← c.expr.coefficientMatrix model.parameters.length model.decisions.length)
      : Except (Fault Extended) _) = .ok p
    ↔ p.1 = i ∧ ∃ c, model.constraint? i = .ok c
      ∧ c.expr.coefficientMatrix model.parameters.length model.decisions.length = .ok p.2 := by
  simp only [bind_eq_ok, pure_eq_ok]
  constructor
  · rintro ⟨c, hc, q, hq, rfl⟩
    exact ⟨rfl, c, hc, hq⟩
  · rintro ⟨rfl, c, hc, hq⟩
    exact ⟨c, hc, p.2, hq, rfl⟩

/-- Every form of a set is that of a registered constraint. -/
theorem Prepared.of_mem (h : plane.Prepared model) {p : ℤ × SparseMatrix Extended}
    (hp : p ∈ plane.forms) : ∃ c, model.constraint? p.1 = .ok c
      ∧ c.expr.coefficientMatrix model.parameters.length model.decisions.length = .ok p.2 := by
  obtain ⟨i, -, hi⟩ := exists_of_mem_result h hp
  obtain ⟨rfl, hc⟩ := formsOf_step.mp hi
  exact hc

theorem mem_forms_of_form? {i : ℤ} {q : SparseMatrix Extended} (h : plane.form? i = .ok q) :
    (i, q) ∈ plane.forms := by
  unfold form? at h
  split at h
  · rename_i p hp
    obtain rfl := Except.ok.inj h
    obtain rfl : p.1 = i := by simpa using List.find?_some hp
    exact List.mem_of_find?_eq_some hp
  · cases h

/-- Every registered constraint has its form. -/
theorem Prepared.form?_eq (h : plane.Prepared model) {i : ℤ} (hi : i ∈ plane.indices) :
    ∃ q c, plane.form? i = .ok q ∧ (i, q) ∈ plane.forms ∧ model.constraint? i = .ok c
      ∧ c.expr.coefficientMatrix model.parameters.length model.decisions.length = .ok q := by
  obtain ⟨p, hp, hip⟩ := exists_of_mem_mapM h hi
  have hfst := (formsOf_step.mp hip).1
  cases hfind : plane.forms.find? fun p => p.1 == i with
  | none => exact absurd (by simp [hfst]) (List.find?_eq_none.mp hfind p hp)
  | some r =>
    have hr := List.mem_of_find?_eq_some hfind
    obtain rfl : r.1 = i := by simpa using List.find?_some hfind
    obtain ⟨c, hc, hq⟩ := h.of_mem hr
    refine ⟨r.2, c, ?_, hr, hc, hq⟩
    rw [form?, hfind]

/-! ## Reformulation -/

/-- The sides of one constraint are added one after the other. -/
theorem exists_addSides (hg : g.Exact model.parameters.length A U) {q : SparseMatrix Extended}
    (hq : Fits q model.parameters.length model.decisions.length)
    (hA : OnlyUses q model.parameters.length A) (sides : List (Extended × Extended))
    (hsides : ∀ side ∈ sides, IsSign side.1 ∧ Scalar.isFinite side.2 = true)
    (m : Master Extended) (supply : Supply)
    (hold : ∀ d, Decision.Owns model.decisions d → d.serial < supply.serial) :
    ∃ cs next, (sides.forM (addSide g model q.toDense)).Yields (m, supply) ⟨⟩
        (m.addConstraints cs, next)
      ∧ Encodes supply.serial next.serial cs fun y => ∀ side ∈ sides, ∀ u, U u →
        valueAt q model.parameters.length model.decisions.length side.1.rat u
          (Decision.valuesAt model.decisions y) ≤ side.2.rat := by
  refine Encodes.exists_forM m supply (fun side x y hxy => ?_) fun side hside m' s hle => ?_
  · rw [Decision.valuesAt_congr fun d hd => hxy d (hold d hd)]
  · obtain ⟨hs, hfin⟩ := hsides side hside
    obtain ⟨rhs, hrhs⟩ := Extended.isFinite_iff.mp hfin
    obtain ⟨cs, next, hreform, henc⟩ := reformSide_spec hg rfl hq hs hA rhs s
      fun d hd => (hold d hd).trans_le hle
    refine ⟨cs, next, ?_, by rwa [hrhs]⟩
    rw [addSide, Action.yields_get_bind, Action.yields_lift_bind, hrhs]
    exact ⟨_, hreform, Action.yields_set.mpr rfl⟩

/-- A reformulation succeeds for prepared constraints, and what it adds to the master encodes all
of them. -/
theorem exists_reform (hg : g.Exact model.parameters.length A U) (hprep : plane.Prepared model)
    (hforms : ∀ p ∈ plane.forms, Fits p.2 model.parameters.length model.decisions.length
      ∧ OnlyUses p.2 model.parameters.length A)
    (indices : List ℤ) (hindices : ∀ i ∈ indices, i ∈ plane.indices) (m : Master Extended)
    (supply : Supply) (hold : ∀ d, Decision.Owns model.decisions d → d.serial < supply.serial) :
    ∃ cs next, (plane.reform g model indices).Yields (m, supply) ⟨⟩ (m.addConstraints cs, next)
      ∧ Encodes supply.serial next.serial cs fun y => ∀ i ∈ indices,
        model.HoldsRobustly U y i := by
  refine Encodes.exists_forM m supply (fun i x y hxy => ?_) fun i hi m' s hle => ?_
  · exact Model.HoldsRobustly.congr fun d hd => hxy d (hold d hd)
  · obtain ⟨q, c, hq, hmem, hc, hmatrix⟩ := hprep.form?_eq (hindices i hi)
    obtain ⟨hfits, hA⟩ := hforms _ hmem
    obtain ⟨cs, next, hsides, henc⟩ := exists_addSides hg hfits hA c.sides
      (fun side hside => Bounded.sides_spec hside) m' s fun d hd => (hold d hd).trans_le hle
    refine ⟨cs, next, ?_, henc.mono_congr fun y => (Model.holdsRobustly_iff hc hmatrix).symm⟩
    rw [reformAt, Action.yields_lift_bind]
    refine ⟨q, hq, ?_⟩
    rw [Action.yields_lift_bind]
    exact ⟨c, hc, hsides⟩

/-! ## Cuts -/

/-- A round of cuts looks at every side and answers the cuts that were made. -/
theorem cuts_spec {point : List Extended} {indices : List ℤ} {cs : List (LinearConstraint Extended)}
    (h : plane.cuts g model point indices = .ok cs) :
    (∀ i ∈ indices, ∃ q c, plane.form? i = .ok q ∧ model.constraint? i = .ok c
      ∧ ∀ side ∈ c.sides, ∃ r, plane.sideCut g model q side.1 side.2 point = .ok r
        ∧ ∀ k, r = some k → k ∈ cs)
    ∧ ∀ k ∈ cs, ∃ i ∈ indices, ∃ q c, plane.form? i = .ok q ∧ model.constraint? i = .ok c
      ∧ ∃ side ∈ c.sides, plane.sideCut g model q side.1 side.2 point = .ok (some k) := by
  obtain ⟨found, hfound, h⟩ := bind_eq_ok.mp h
  obtain rfl := pure_eq_ok.mp h
  constructor
  · intro i hi
    obtain ⟨rs, hrs, hstep⟩ := exists_of_mem_mapM hfound hi
    obtain ⟨q, hq, hstep⟩ := bind_eq_ok.mp hstep
    obtain ⟨c, hc, hstep⟩ := bind_eq_ok.mp hstep
    refine ⟨q, c, hq, hc, fun side hside => ?_⟩
    obtain ⟨r, hr, hcut⟩ := exists_of_mem_mapM hstep hside
    refine ⟨r, hcut, ?_⟩
    rintro k rfl
    exact List.mem_filterMap.mpr ⟨some k, List.mem_flatten.mpr ⟨rs, hrs, hr⟩, rfl⟩
  · intro k hk
    obtain ⟨r, hr, hrk⟩ := List.mem_filterMap.mp hk
    obtain rfl : r = some k := hrk
    obtain ⟨rs, hrs, hr⟩ := List.mem_flatten.mp hr
    obtain ⟨i, hi, hstep⟩ := exists_of_mem_result hfound hrs
    obtain ⟨q, hq, hstep⟩ := bind_eq_ok.mp hstep
    obtain ⟨c, hc, hstep⟩ := bind_eq_ok.mp hstep
    obtain ⟨side, hside, hcut⟩ := exists_of_mem_result hstep hr
    exact ⟨i, hi, q, c, hq, hc, side, hside, hcut⟩

/-- A round of cuts answers side by side, if every side is answered. -/
theorem exists_cuts (hprep : plane.Prepared model) {is : List ℤ}
    (his : ∀ i ∈ is, i ∈ plane.indices) {point : List Extended}
    {R : SparseMatrix Extended × Extended × Extended → Option (LinearConstraint Extended) → Prop}
    (h : ∀ i ∈ is, ∀ q, (i, q) ∈ plane.forms → ∀ side, (q, side) ∈ model.sidesAt i →
      ∃ r, plane.sideCut g model q side.1 side.2 point = .ok r ∧ R (q, side) r) :
    ∃ rs, plane.cuts g model point is = .ok rs.reduceOption
      ∧ List.Forall₂ R (model.sidesAlong is) rs := by
  have hstep : ∀ i ∈ is, ∃ rs, (do
      let q ← plane.form? i
      let c ← model.constraint? i
      c.sides.mapM fun side => plane.sideCut g model q side.1 side.2 point
      : Except (Fault Extended) (List (Option (LinearConstraint Extended)))) = .ok rs
      ∧ List.Forall₂ R (model.sidesAt i) rs := by
    intro i hi
    obtain ⟨q, c, hq, hmem, hc, hmatrix⟩ := hprep.form?_eq (his i hi)
    have hsides := Model.sidesAt_eq hc hmatrix
    obtain ⟨rs, hrs, hR⟩ := exists_mapM
      (f := fun side : Extended × Extended => plane.sideCut g model q side.1 side.2 point)
      (R := fun side r => R (q, side) r) (l := c.sides)
      fun side hside => h i hi q hmem side (hsides ▸ List.mem_map_of_mem hside)
    refine ⟨rs, bind_eq_ok.mpr ⟨q, hq, bind_eq_ok.mpr ⟨c, hc, hrs⟩⟩, ?_⟩
    rw [hsides]
    exact List.forall₂_map_left_iff.mpr hR
  obtain ⟨found, hfound, hR⟩ := exists_mapM hstep
  refine ⟨found.flatten, bind_eq_ok.mpr ⟨found, hfound, rfl⟩, ?_⟩
  rw [Model.sidesAlong, List.flatMap_def]
  exact List.rel_flatten (List.forall₂_map_left_iff.mpr hR)

end CuttingPlane

end RobustOpt
