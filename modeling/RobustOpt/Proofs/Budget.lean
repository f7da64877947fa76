import RobustOpt.Proofs.Budget.Reformulation

/-!
# Budget sets get it right

A budget set with a rational budget that passed its checks and its setup has a worst case and a
reformulation that are right for the values its parameters can take.

## Main definitions

* `Budget.WellFormed`: a rational budget, and what is checked when a set is built.
* `Budget.IsSetUp`: what a setup leaves behind.
* `Budget.RegionFor`: the values the parameters of a model can take.

## Main statements

* `Budget.yields_setup`: what a setup checks and takes.
* `Budget.maximizes_geometry`, `Budget.exact_geometry`: worst case and reformulation are right.
-/

namespace RobustOpt

open Finset Bilinear

namespace Budget

/-! ## The whole geometry -/

/-- The nominal values and deviations of a set for a model: the given ones or those of its
bounds. -/
def dataFor (b : Budget Extended) (model : Model Extended) : List Extended × List Extended :=
  ((b.givenNominal.map Grid.entries).getD
      (midpoints model.parameterBounds.1 model.parameterBounds.2),
    (b.givenDeviation.map Grid.entries).getD
      (halfWidths model.parameterBounds.1 model.parameterBounds.2))

/-- A rational budget that is not negative, grids with as many entries as their shape says, and no
negative deviation. A set can also be built with an infinite budget, which is not well-formed. -/
structure WellFormed (b : Budget Extended) : Prop where
  gamma : ∃ q, b.gamma = .finite q ∧ 0 ≤ q
  nominal : ∀ g ∈ b.givenNominal, ∀ size, g.shape = [size] → g.entries.length = size
  deviation : ∀ g ∈ b.givenDeviation, ∀ size, g.shape = [size] → g.entries.length = size
  nonneg : ∀ g ∈ b.givenDeviation, ∀ x ∈ g.entries, Scalar.lt x 0 = false

/-- Well-formedness does not depend on the data of a setup. -/
theorem wellFormed_withData {b : Budget Extended} (data : Option (List Extended × List Extended)) :
    WellFormed { b with data := data } ↔ b.WellFormed :=
  ⟨fun h => ⟨h.gamma, h.nominal, h.deviation, h.nonneg⟩,
    fun h => ⟨h.gamma, h.nominal, h.deviation, h.nonneg⟩⟩

/-- The values the parameters of a model can take. -/
def RegionFor (b : Budget Extended) (model : Model Extended) (u : ℕ → ℚ) : Prop :=
  ∃ q, b.gamma = .finite q
    ∧ Region q (b.dataFor model).1 (b.dataFor model).2 model.parameters.length u

/-- A set whose data were taken from the model, and that has finite ones for all parameters that
occur in `forms`. -/
structure IsSetUp (b : Budget Extended) (model : Model Extended)
    (forms : List (SparseMatrix Extended)) : Prop where
  data : b.data = some (b.dataFor model)
  nominal : (b.dataFor model).1.length = model.parameters.length
  deviation : (b.dataFor model).2.length = model.parameters.length
  bounded : unboundedParameter? (usedParameters forms) (b.dataFor model).1 (b.dataFor model).2
    = none

/-- What a setup checks and takes. -/
theorem yields_setup {name : String} {model : Model Extended}
    {forms : List (SparseMatrix Extended)} {b b' : Budget Extended} {r : Unit} :
    (setup name model forms).Yields b r b' ↔
      (∀ g ∈ b.givenNominal, g.shape = [model.parameters.length])
      ∧ (∀ g ∈ b.givenDeviation, g.shape = [model.parameters.length])
      ∧ unboundedParameter? (usedParameters forms) (b.dataFor model).1 (b.dataFor model).2 = none
      ∧ b' = { b with data := some (b.dataFor model) } := by
  have hcheck : ∀ (name : String) (given : Option (Grid Extended)) (xs ys : List Extended),
      checkDimension name model.parameters.length
        (given.getD (Grid.mk [model.parameters.length] xs)) = .ok ys
      ↔ (∀ g ∈ given, g.shape = [model.parameters.length])
        ∧ ys = (given.map Grid.entries).getD xs := by
    intro name given xs ys
    cases given with
    | none => simp [checkDimension, eq_comm]
    | some g =>
      by_cases h : g.shape = [model.parameters.length] <;> simp [checkDimension, h, eq_comm]
  unfold setup
  simp only [Action.yields_bind, Action.yields_get, Action.yields_lift, hcheck]
  constructor
  · rintro ⟨_, _, ⟨rfl, rfl⟩, nominal, _, ⟨⟨hnom, rfl⟩, rfl⟩, deviation, _, ⟨⟨hdev, rfl⟩, rfl⟩, h⟩
    cases hfree : unboundedParameter? (usedParameters forms) (b.dataFor model).1
      (b.dataFor model).2 with
    | some i =>
      exfalso
      revert h
      simp only [dataFor] at hfree
      rw [hfree]
      exact Action.yields_throw
    | none =>
      refine ⟨hnom, hdev, rfl, ?_⟩
      simp only [dataFor] at hfree
      rw [hfree] at h
      exact (Action.yields_set.mp h).symm
  · rintro ⟨hnom, hdev, hfree, rfl⟩
    refine ⟨b, b, ⟨rfl, rfl⟩, _, b, ⟨⟨hnom, rfl⟩, rfl⟩, _, b, ⟨⟨hdev, rfl⟩, rfl⟩, ?_⟩
    simp only [dataFor] at hfree
    rw [hfree]
    exact Action.yields_set.mpr rfl

theorem isSetUp_of_yields (name : String) {model : Model Extended}
    {forms : List (SparseMatrix Extended)} {b b' : Budget Extended} {r : Unit} (hb : b.WellFormed)
    (h : (setup name model forms).Yields b r b') : b'.IsSetUp model forms := by
  obtain ⟨hnom, hdev, hfree, rfl⟩ := yields_setup.mp h
  refine ⟨rfl, ?_, ?_, hfree⟩
  · show (b.dataFor model).1.length = _
    unfold dataFor
    cases hg : b.givenNominal with
    | none => simp [midpoints, Model.parameterBounds]
    | some g => exact hb.nominal g (by simp [hg]) _ (hnom g (by simp [hg]))
  · show (b.dataFor model).2.length = _
    unfold dataFor
    cases hg : b.givenDeviation with
    | none => simp [halfWidths, Model.parameterBounds]
    | some g => exact hb.deviation g (by simp [hg]) _ (hdev g (by simp [hg]))

variable {b : Budget Extended} {model : Model Extended} {forms : List (SparseMatrix Extended)}

/-- Parameters without a stored entry in any form are those that a setup does not look at. -/
theorem row_eq_nil_of_notMem_used {q : SparseMatrix Extended} (hmem : q ∈ forms) {n i : ℕ}
    (hheight : q.height = n + 1) (hi : i < n) (hunused : i ∉ usedParameters forms) :
    q.rows.getD i [] = [] := by
  have hmax : ∀ (l : List (SparseMatrix Extended)) (k : ℕ),
      k ≤ l.foldl (fun n q => max n (q.height - 1)) k
        ∧ ∀ q ∈ l, q.height - 1 ≤ l.foldl (fun n q => max n (q.height - 1)) k := by
    intro l
    induction l with
    | nil => simp
    | cons p l ih =>
      intro k
      obtain ⟨h1, h2⟩ := ih (max k (p.height - 1))
      refine ⟨(le_max_left _ _).trans h1, fun q hq => ?_⟩
      rcases List.mem_cons.mp hq with rfl | hq
      exacts [(le_max_right _ _).trans h1, h2 q hq]
  by_contra hne
  refine hunused (List.mem_filter.mpr ⟨List.mem_range.mpr ?_, ?_⟩)
  · have := (hmax forms 0).2 q hmem
    omega
  · refine List.any_eq_true.mpr ⟨q, hmem, ?_⟩
    simp only [Bool.and_eq_true, decide_eq_true_eq, Bool.not_eq_true', hheight]
    exact ⟨by omega, by simpa using hne⟩

/-- A parameter without finite data does not occur in any form. -/
theorem IsSetUp.notMem_used (h : b.IsSetUp model forms) {i : ℕ}
    (hcount : ¬ Counts (b.dataFor model).1 (b.dataFor model).2 i) : i ∉ usedParameters forms := by
  intro hused
  have := List.find?_eq_none.mp h.bounded i hused
  exact hcount (by simpa [Counts] using this)

/-- A form of a set only has entries of parameters with finite data. -/
theorem IsSetUp.onlyUses (h : b.IsSetUp model forms) {q : SparseMatrix Extended} (hmem : q ∈ forms)
    {m : ℕ} (hq : Shaped q model.parameters.length m) :
    OnlyUses q model.parameters.length (Counts (b.dataFor model).1 (b.dataFor model).2) := by
  intro i hi hcount j
  rw [SparseMatrix.coef, row_eq_nil_of_notMem_used hmem hq.height hi (h.notMem_used hcount)]
  rfl

/-- Finite deviations are not negative. -/
theorem WellFormed.deviation_nonneg (hb : b.WellFormed)
    (hbounds : ∀ p ∈ model.parameters, Scalar.lt p.upper p.lower = false) {i : ℕ}
    (hi : i < model.parameters.length)
    (hcount : Counts (b.dataFor model).1 (b.dataFor model).2 i)
    (hlen : (b.dataFor model).2.length = model.parameters.length) :
    0 ≤ Extended.coord (b.dataFor model).2 i := by
  have hfin := hcount.2
  revert hfin hlen
  unfold dataFor Extended.coord
  cases hg : b.givenDeviation with
  | some g =>
    simp only [Option.map_some, Option.getD_some]
    intro hlen hfin
    have hmem : g.entries.getD i 0 ∈ g.entries := by
      rw [List.getD_eq_getElem _ _ (hlen ▸ hi)]
      exact List.getElem_mem _
    have hneg := hb.nonneg g (by simp [hg]) _ hmem
    rw [← Extended.finite_rat hfin, Extended.zero_eq, Extended.lt_finite] at hneg
    exact not_lt.mp (of_decide_eq_false hneg)
  | none =>
    simp only [Option.map_none, Option.getD_none, halfWidths, Model.parameterBounds]
    intro _ hfin
    have hentry : (List.zipWith (fun l u : Extended => Scalar.half (u - l))
        (model.parameters.map Parameter.lower) (model.parameters.map Parameter.upper)).getD i 0
        = Scalar.half (model.parameters[i].upper - model.parameters[i].lower) := by
      rw [List.getD_eq_getElem _ _ (by simpa using hi)]
      simp
    have hcross := hbounds _ (List.getElem_mem hi)
    rw [hentry] at hfin ⊢
    have hparts := (Extended.isFinite_mul.mp hfin).1
    obtain ⟨hu, hl⟩ := Extended.isFinite_add.mp hparts
    obtain ⟨u, hu⟩ := Extended.isFinite_iff.mp hu
    obtain ⟨l, hl⟩ := Extended.isFinite_iff.mp (Extended.isFinite_neg.mp hl)
    rw [hu, hl, Extended.lt_finite] at hcross
    rw [hu, hl, Extended.finite_sub, Extended.half_finite, Extended.rat_finite]
    have := not_lt.mp (of_decide_eq_false hcross)
    linarith

theorem regionFor_eq {gamma : ℚ} (hgamma : b.gamma = .finite gamma) : b.RegionFor model
    = Region gamma (b.dataFor model).1 (b.dataFor model).2 model.parameters.length := by
  funext u
  simp [RegionFor, hgamma]

/-- The worst cases of a budget set are right for its forms. -/
theorem maximizes_geometry (hb : b.WellFormed) (hset : b.IsSetUp model forms)
    (hbounds : ∀ p ∈ model.parameters, Scalar.lt p.upper p.lower = false) :
    b.geometry.Maximizes model.parameters.length
      (Counts (b.dataFor model).1 (b.dataFor model).2) (b.RegionFor model) := by
  obtain ⟨gamma, hgamma, hg⟩ := hb.gamma
  rw [regionFor_eq hgamma]
  intro c us hc h
  exact worstCase_spec hset.data hgamma hg hset.nominal hset.deviation
    (fun i hi hcount => hb.deviation_nonneg hbounds hi hcount hset.deviation) hc h

/-- Worst case and reformulation of a budget set are right for its forms. -/
theorem exact_geometry (hb : b.WellFormed) (hset : b.IsSetUp model forms)
    (hbounds : ∀ p ∈ model.parameters, Scalar.lt p.upper p.lower = false) :
    b.geometry.Exact model.parameters.length
      (Counts (b.dataFor model).1 (b.dataFor model).2) (b.RegionFor model) := by
  refine ⟨maximizes_geometry hb hset hbounds, ?_⟩
  obtain ⟨gamma, hgamma, hg⟩ := hb.gamma
  rw [regionFor_eq hgamma]
  intro q s ds certain rhs supply hq hs hA hold hwithin heval
  simp only [geometry, hset.data, hgamma]
  exact reformulate_spec hg (fun i hi hcount =>
    hb.deviation_nonneg hbounds hi hcount hset.deviation) hq hs hA hold hwithin heval

end Budget

end RobustOpt
