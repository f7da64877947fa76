import RobustOpt.Proofs.Budget.Exactness
import RobustOpt.Proofs.Polyhedral.Exactness
import RobustOpt.Proofs.Scenarios

/-!
# A full budget is the box

A budget of at least the number of the parameters never runs out: every share that contributes is a
whole one. If the nominal values and deviations are the midpoints and half-widths of the bounds, the
worst cases of the budget set are therefore the corners of the box, also for parameters that are
fixed or do not matter. Hence the budget set and the box answer the same cuts and scenarios. Their
dual constraints are different systems with different auxiliary variables, but describe the same
values of the parameters, and so admit the same decision values.

## Main definitions

* `Budget.Lasts`: a budget for a number of whole shares.
* `Budget.corner`: the worst case over a box with finite bounds.
* `Model.Boxed`: all parameters have rational bounds.
* `UncertaintySet.Interchangeable`: two sets with the same worst cases, cuts and scenarios.
* `Completable`, `Geometry.AdmitAlike`: constraints that admit the same decision values.

## Main statements

* `Budget.worstCase_of_lasts`, `Polyhedral.boxVertex_scalars`: the worst cases are corners.
* `Budget.region_iff_withinBounds`: the values of both sets are the same.
* `admitAlike_of_lasts`: the dual constraints admit the same decision values.
* `UncertaintySet.full_budget_interchangeable`: a budget for all parameters is as good as none.
-/

namespace RobustOpt

open Finset Bilinear

/-! ## Spending a budget that lasts -/

namespace Budget

variable {n : ℕ} {c k l t : ℕ → ℚ}

/-- A budget of at least a number of whole shares, maybe an infinite one. -/
def Lasts (b : Extended) (count : ℕ) : Prop := Scalar.le (Extended.finite count) b = true

theorem lasts_finite {q : ℚ} {count : ℕ} : Lasts (.finite q) count ↔ (count : ℚ) ≤ q := by
  simp [Lasts]

/-- A budget that lasts pays for a whole share, and the rest lasts for the other ones. -/
theorem Lasts.step {b : Extended} {count : ℕ} (h : Lasts b (count + 1)) :
    Scalar.le b 0 = false ∧ Scalar.min 1 b = 1 ∧ Lasts (b - 1) count := by
  cases b with
  | finite q =>
    have hq : (count : ℚ) + 1 ≤ q := by simpa [Lasts] using h
    have hcount : (0 : ℚ) ≤ count := Nat.cast_nonneg _
    have hpos : ¬ q ≤ 0 := by linarith
    have hone : ¬ q < 1 := by linarith
    refine ⟨?_, ?_, ?_⟩
    · rw [Extended.zero_eq, Extended.le_finite, decide_eq_false hpos]
    · rw [Scalar.min, Extended.one_eq, Extended.lt_finite, decide_eq_false hone]
      rfl
    · rw [Extended.one_eq, Extended.finite_sub, lasts_finite]
      linarith
  | posInf => exact ⟨rfl, rfl, rfl⟩
  | negInf | undefined => cases h

/-- While the budget lasts, parameters with a positive contribution use their whole deviation. -/
theorem spend_of_lasts {ranked : List ℕ} (hlt : ∀ i ∈ ranked, i < n)
    (hsorted : ranked.Pairwise fun i j => k j ≤ k i) {b : Extended} (hb : Lasts b ranked.length)
    (z : ℕ → ℚ) : spend (scalars n c) (scalars n k) ranked b (scalars n z)
      = scalars n fun i => if i ∈ ranked ∧ 0 < k i then signOf (c i) else z i := by
  induction ranked generalizing b z with
  | nil => simp [spend]
  | cons i rest ih =>
    obtain ⟨hle, hmin, hrest⟩ := hb.step
    obtain ⟨hi, hlt⟩ := List.forall_mem_cons.mp hlt
    obtain ⟨hhead, htail⟩ := List.pairwise_cons.mp hsorted
    rw [spend, getD_scalars k hi, getD_scalars c hi, Extended.zero_eq, Extended.le_finite,
      ← Extended.zero_eq, hle, hmin, Bool.false_or]
    by_cases hki : k i ≤ 0
    · -- the ranking is by contribution: nothing is gained from here on
      rw [if_pos (by simpa using hki)]
      congr 1
      funext j
      rw [if_neg]
      rintro ⟨hj, hpos⟩
      rcases List.mem_cons.mp hj with rfl | hj
      · exact hpos.not_ge hki
      · exact hpos.not_ge ((hhead j hj).trans hki)
    · rw [if_neg (by simpa using hki), sign_finite, Extended.one_eq]
      dsimp only
      rw [Extended.finite_mul, one_mul, set_scalars, ← Extended.one_eq, ih hlt htail hrest]
      congr 1
      funext j
      by_cases hji : j = i
      · subst hji
        simp [not_le.mp hki]
      · simp [hji]

/-- With a budget for all parameters every share that contributes is whole. -/
theorem shares_of_lasts {gamma : Extended} (hgamma : Lasts gamma n) (c r : ℕ → ℚ) :
    shares gamma (scalars n c) (scalars n r)
      = scalars n fun i => if 0 < r i * |c i| then signOf (c i) else 0 := by
  have hcontributions : List.zipWith contribution (scalars n c) (scalars n r)
      = scalars n (gain (scalars n r) c) :=
    contributions_eq (by simp) fun i hi hn => absurd (counts_scalars r r hi) hn
  have hranked : (ranking (scalars n (gain (scalars n r) c))).length = n := by
    rw [(ranking_spec n _).1.length_eq, List.length_range]
  have hzero : ((scalars n c).map fun _ => (0 : Extended)) = scalars n fun _ => 0 := by
    simp [scalars, Function.comp_def, Extended.zero_eq]
  rw [shares, hcontributions, hzero, spend_of_lasts (fun i hi => (mem_ranking n).mp hi)
    (ranking_spec n _).2 (hranked.symm ▸ hgamma)]
  refine List.map_congr_left fun i hi => ?_
  have hi : i < n := List.mem_range.mp hi
  have hgain : gain (scalars n r) c i = r i * |c i| := by rw [gain, coord_scalars r hi]
  simp [mem_ranking, hi, hgain]

/-- The value of a parameter between `l` and `t` at the vertex in direction `c`, the midpoint
without a direction. -/
def corner (l t c : ℕ → ℚ) (i : ℕ) : ℚ :=
  if c i = 0 then (l i + t i) / 2 else if 0 < c i then t i else l i

/-- A whole share of the half-width leads from the midpoint to the corner. Without a half-width both
are the same. -/
theorem midpoint_add_share {i : ℕ} (hle : l i ≤ t i) :
    (l i + t i) / 2 + (if c i = 0 then 0 else
      (t i - l i) / 2 * if 0 < (t i - l i) / 2 * |c i| then signOf (c i) else 0)
      = corner l t c i := by
  unfold corner
  rcases hle.eq_or_lt with heq | hlt
  · simp [heq]
  · by_cases hc : c i = 0
    · simp [hc]
    · have hpos : 0 < (t i - l i) / 2 * |c i| := mul_pos (by linarith) (abs_pos.mpr hc)
      rw [if_neg hc, if_neg hc, if_pos hpos, signOf]
      rcases lt_or_gt_of_ne hc with hneg | hup
      · rw [if_neg hneg.not_gt, if_pos hneg, if_neg hneg.not_gt]
        ring
      · rw [if_pos hup, if_pos hup]
        ring

/-- A set whose nominal values and deviations are the midpoints and half-widths of bounds, with a
budget for all parameters, has the corners of the box as its worst cases. -/
theorem worstCase_of_lasts {b : Budget Extended} (hle : ∀ i < n, l i ≤ t i)
    (hdata : b.data = some (scalars n fun i => (l i + t i) / 2, scalars n fun i => (t i - l i) / 2))
    (hgamma : Lasts b.gamma n) (c : ℕ → ℚ) :
    b.worstCase (scalars n c) = .ok (scalars n (corner l t c)) := by
  rw [worstCase, hdata]
  dsimp only
  rw [if_neg (by simp), shares_of_lasts hgamma]
  congr 1
  refine List.ext_getElem (by simp) fun i hi _ => ?_
  have hi : i < n := by simpa using hi
  rw [List.getElem_zipWith, List.getElem_zipWith, List.getElem_zip]
  simp only [scalars, List.getElem_map, List.getElem_range, Extended.isZero_finite,
    decide_eq_true_eq]
  rw [← midpoint_add_share (hle i hi), Extended.finite_mul, Extended.zero_eq,
    ← apply_ite Extended.finite, Extended.finite_add]

end Budget

/-- The vertices of a box with finite bounds are its corners. -/
theorem Polyhedral.boxVertex_scalars (n : ℕ) (l t c : ℕ → ℚ) :
    boxVertex (scalars n l) (scalars n t) (scalars n c)
      = .ok (scalars n (Budget.corner l t c)) := by
  rw [boxVertex, zip_range_scalars]
  refine mapM_eq_ok.mpr (List.forall₂_map_left_iff.mpr (List.forall₂_map_right_iff.mpr
    (List.forall₂_same.mpr fun i hi => ?_)))
  have hi : i < n := List.mem_range.mp hi
  have hget : ∀ v : ℕ → ℚ, (scalars n v)[i]? = some (.finite (v i)) := fun v => by
    simp [scalars, hi]
  simp only [hget, vertexEntry, freeValue, Extended.isZero_finite, Extended.isFinite_finite,
    Extended.zero_eq, Extended.lt_finite, Extended.finite_add, Extended.half_finite, Budget.corner,
    Bool.and_self, if_true, decide_eq_true_eq, apply_ite Extended.finite]
  by_cases hc : c i = 0
  · simp [hc]
  · by_cases hpos : 0 < c i <;> simp [hc, hpos]

theorem Polyhedral.worstCase_of_isBox {d : Polyhedral Extended} (hd : d.isBox = true) {n : ℕ}
    {l t : ℕ → ℚ} (hbounds : d.bounds = some (scalars n l, scalars n t))
    (solver : Solver Extended) (c : ℕ → ℚ) :
    d.worstCase (scalars n c) solver = .ok (scalars n (Budget.corner l t c)) := by
  rw [worstCase, if_pos hd, hbounds]
  exact boxVertex_scalars n l t c

/-! ## The values of both sets -/

theorem Polyhedral.withinBounds_scalars {n : ℕ} {l t u : ℕ → ℚ} :
    WithinBounds n (scalars n l) (scalars n t) u ↔ ∀ i < n, l i ≤ u i ∧ u i ≤ t i := by
  refine forall₂_congr fun i hi => ?_
  rw [getD_scalars l hi, getD_scalars t hi]
  simp [Between]

/-- Values that differ from the midpoints by at most the half-widths are those between the bounds. A
budget for all parameters excludes none of them. -/
theorem Budget.region_iff_withinBounds {n : ℕ} {l t : ℕ → ℚ} {gamma : ℚ} (hle : ∀ i < n, l i ≤ t i)
    (hgamma : (n : ℚ) ≤ gamma) {u : ℕ → ℚ} :
    Region gamma (scalars n fun i => (l i + t i) / 2) (scalars n fun i => (t i - l i) / 2) n u
      ↔ Polyhedral.WithinBounds n (scalars n l) (scalars n t) u := by
  rw [region_scalars, Polyhedral.withinBounds_scalars]
  constructor
  · rintro ⟨z, hz, -, hu⟩ i hi
    have hhalf : 0 ≤ (t i - l i) / 2 := by linarith [hle i hi]
    obtain ⟨hlow, hhigh⟩ := abs_le.mp (hz i hi)
    have hdown := mul_le_mul_of_nonneg_left hlow hhalf
    have hup := mul_le_mul_of_nonneg_left hhigh hhalf
    rw [hu i hi]
    constructor <;> linarith
  · intro hu
    let z : ℕ → ℚ := fun i => (u i - (l i + t i) / 2) / ((t i - l i) / 2)
    have hz : ∀ i < n, |z i| ≤ 1 := by
      intro i hi
      have hhalf : 0 ≤ (t i - l i) / 2 := by linarith [hle i hi]
      rw [abs_div, abs_of_nonneg hhalf]
      refine div_le_one_of_le₀ (abs_le.mpr ⟨?_, ?_⟩) hhalf <;> linarith [hu i hi]
    refine ⟨z, hz, ?_, fun i hi => ?_⟩
    · calc ∑ i ∈ range n, |z i| ≤ ∑ i ∈ range n, 1 :=
            sum_le_sum fun i hi => hz i (mem_range.mp hi)
        _ = n := by simp
        _ ≤ gamma := hgamma
    · obtain ⟨hlow, hhigh⟩ := hu i hi
      rcases (hle i hi).eq_or_lt with heq | hlt
      · -- a fixed parameter, for which `z i` is a division by zero
        rw [heq, sub_self, zero_div, zero_mul]
        linarith
      · have hne : (t i - l i) / 2 ≠ 0 := by
          have : 0 < t i - l i := sub_pos.mpr hlt
          positivity
        rw [mul_div_cancel₀ _ hne]
        ring

/-- All parameters have rational bounds that do not cross. -/
def Model.Boxed (model : Model Extended) : Prop :=
  ∀ p ∈ model.parameters, ∃ l t : ℚ, p.lower = .finite l ∧ p.upper = .finite t ∧ l ≤ t

/-- The bounds of the parameters by position. -/
theorem Model.Boxed.exists_bounds {model : Model Extended} (h : model.Boxed) :
    ∃ l t : ℕ → ℚ, model.parameterBounds
        = (scalars model.parameters.length l, scalars model.parameters.length t)
      ∧ ∀ i < model.parameters.length, l i ≤ t i := by
  have hbounds : ∀ i, ∃ l t : ℚ, ∀ hi : i < model.parameters.length,
      model.parameters[i].lower = .finite l ∧ model.parameters[i].upper = .finite t ∧ l ≤ t := by
    intro i
    by_cases hi : i < model.parameters.length
    · obtain ⟨l, t, hlt⟩ := h _ (List.getElem_mem hi)
      exact ⟨l, t, fun _ => hlt⟩
    · exact ⟨0, 0, fun h => absurd h hi⟩
  choose l t hlt using hbounds
  refine ⟨l, t, Prod.ext ?_ ?_, fun i hi => (hlt i hi).2.2⟩
  · refine List.ext_getElem (by simp [parameterBounds]) fun i hi _ => ?_
    have hi : i < model.parameters.length := by simpa [parameterBounds] using hi
    simpa [parameterBounds, scalars] using (hlt i hi).1
  · refine List.ext_getElem (by simp [parameterBounds]) fun i hi _ => ?_
    have hi : i < model.parameters.length := by simpa [parameterBounds] using hi
    simpa [parameterBounds, scalars] using (hlt i hi).2.1

/-- Without nominal values and deviations of its own a set takes midpoints and half-widths. -/
theorem Budget.dataFor_of_bounds {b : Budget Extended} (hnominal : b.givenNominal = none)
    (hdeviation : b.givenDeviation = none) {model : Model Extended} {n : ℕ} {l t : ℕ → ℚ}
    (h : model.parameterBounds = (scalars n l, scalars n t)) : b.dataFor model
      = (scalars n fun i => (l i + t i) / 2, scalars n fun i => (t i - l i) / 2) := by
  simp [dataFor, hnominal, hdeviation, h, midpoints, halfWidths, scalars, List.zipWith_map,
    List.zipWith_self]

/-- Rational nominal values and deviations leave no parameter unbounded. -/
theorem Budget.unboundedParameter?_scalars (used : List ℕ) (n : ℕ) (nominal deviation : ℕ → ℚ) :
    unboundedParameter? used (scalars n nominal) (scalars n deviation) = none := by
  have hfinite : ∀ (v : ℕ → ℚ) (i : ℕ), Scalar.isFinite ((scalars n v).getD i 0) = true := by
    intro v i
    rw [← Extended.finite_coord (fun x hx => isFinite_of_mem_scalars hx) i]
    rfl
  refine List.find?_eq_none.mpr fun i _ => ?_
  simp [hfinite, -List.getD_eq_getElem?_getD]

/-! ## The same worst cases, the same answers -/

namespace CuttingPlane

variable {plane plane' : CuttingPlane Extended} {g g' : Geometry Extended} {model : Model Extended}
  {point : List Extended} {is : List ℤ}

theorem sideWorstCase_congr {q : SparseMatrix Extended} {s : Extended}
    (h : g.worstCase (sensitivity q s point).1 = g'.worstCase (sensitivity q s point).1) :
    sideWorstCase g q s point = sideWorstCase g' q s point := by
  unfold sideWorstCase
  simp only [h]

theorem form?_congr (hforms : plane.forms = plane'.forms) (i : ℤ) :
    plane.form? i = plane'.form? i := by
  rw [form?, form?, hforms]

/-- The cuts of a round only depend on the forms, the tolerance and the worst cases of the sides. -/
theorem cuts_congr (hforms : plane.forms = plane'.forms) (htol : plane.cutTol = plane'.cutTol)
    (h : ∀ i ∈ is, ∀ q c, plane.form? i = .ok q → model.constraint? i = .ok c →
      ∀ side ∈ c.sides, sideWorstCase g q side.1 point = sideWorstCase g' q side.1 point) :
    plane.cuts g model point is = plane'.cuts g' model point is := by
  refine congrArg (fun r => r >>= fun found => pure (found.flatten.filterMap id))
    (mapM_congr fun i hi => ?_)
  rw [form?_congr hforms]
  cases hq : plane'.form? i with
  | error e => rfl
  | ok q =>
    cases hc : model.constraint? i with
    | error e => rfl
    | ok c =>
      refine mapM_congr fun side hside => ?_
      rw [sideCut, sideCut, h i hi q c ((form?_congr hforms i).trans hq) hc side hside, htol]

/-- So do the scenarios, apart from the tolerance. -/
theorem scenarios_congr (hforms : plane.forms = plane'.forms)
    (h : ∀ i ∈ is, ∀ q c, plane.form? i = .ok q → model.constraint? i = .ok c →
      ∀ side ∈ c.sides, sideWorstCase g q side.1 point = sideWorstCase g' q side.1 point) :
    plane.scenarios g model point is = plane'.scenarios g' model point is := by
  refine mapM_congr fun i hi => ?_
  rw [scenario_eq, scenario_eq, form?_congr hforms]
  cases hq : plane'.form? i with
  | error e => rfl
  | ok q =>
    cases hc : model.constraint? i with
    | error e => rfl
    | ok c =>
      have hfound : c.sides.mapM (fun side => sideSlack g q side point)
          = c.sides.mapM fun side => sideSlack g' q side point := mapM_congr fun side hside => by
        rw [sideSlack, sideSlack, h i hi q c ((form?_congr hforms i).trans hq) hc side hside]
      change (c.sides.mapM (fun side => sideSlack g q side point) >>= _)
        = c.sides.mapM (fun side => sideSlack g' q side point) >>= _
      rw [hfound]

end CuttingPlane

/-! ## Dual constraints that admit the same decision values -/

/-- Auxiliary columns, those from `start` on, can be given values that satisfy constraints together
with the given values of the earlier columns. -/
def Completable (start : ℕ) (cs : List (LinearConstraint Extended)) (x : Point) : Prop :=
  ∃ y : Point, (∀ d : Column, d.serial < start → y d = x d)
    ∧ (∀ d : Column, start ≤ d.serial → d.Admits (y d)) ∧ ∀ c ∈ cs, c.Holds y.exact

theorem Represents.completable_iff {start : ℕ} {S : Column → Prop}
    {cs : List (LinearConstraint Extended)} {C : Point → Prop} (h : Represents start S cs C)
    (x : Point) : Completable start cs x ↔ C x := by
  refine ⟨?_, h.complete x⟩
  rintro ⟨y, hyx, hadmits, hy⟩
  rw [h.congr x y fun d hd => (hyx d hd).symm]
  exact h.sound y (fun d hd => (h.signed d hd).2 _ (hadmits d (h.signed d hd).1)) hy

/-- For every side with rational data, two kinds of sets write constraints that admit the same
decision values. -/
def Geometry.AdmitAlike (g g' : Geometry Extended) (n : ℕ) : Prop :=
  ∀ (side : Side Extended) (ds : List (Decision Extended)) (w : ℕ → ℕ → ℚ) (o : ℕ → ℚ)
    (certain : Affine Extended) (rhs : ℚ) (supply : Supply), side.HasEntries n ds.length w o →
    certain.form.Finite → certain.Within (Decision.Owns ds) →
    (∀ d, Decision.Owns ds d → d.serial < supply.serial) →
    ∃ cs next cs' next', g.reformulate side certain (.finite rhs) ds supply = .ok (cs, next)
      ∧ g'.reformulate side certain (.finite rhs) ds supply = .ok (cs', next')
      ∧ ∀ x, Completable supply.serial cs x ↔ Completable supply.serial cs' x

/-- The multipliers of a box and the prices of a full budget exist at the same decision values. -/
theorem admitAlike_of_lasts {n : ℕ} {l t : ℕ → ℚ} {gamma : ℚ} (hle : ∀ i < n, l i ≤ t i)
    (hgamma : (n : ℚ) ≤ gamma) {d : Polyhedral Extended} {b : Budget Extended}
    (hpolyhedron : d.polyhedron = some (Polyhedral.box n (scalars n l) (scalars n t) n))
    (hdata : b.data = some (scalars n fun i => (l i + t i) / 2, scalars n fun i => (t i - l i) / 2))
    (hb : b.gamma = .finite gamma) (solver : Solver Extended) :
    (d.geometry solver).AdmitAlike b.geometry n := by
  intro side ds w o certain rhs supply hside hfin hcertain hold
  have hlower : Polyhedral.WithinBounds n (scalars n l) (scalars n t) l :=
    Polyhedral.withinBounds_scalars.mpr fun i hi => ⟨le_rfl, hle i hi⟩
  obtain ⟨hregular, hcontains⟩ := Polyhedral.box_spec hlower le_rfl
  obtain ⟨e, hbox, he⟩ := Polyhedral.exists_reformulate_written
    (Polyhedral.box n (scalars n l) (scalars n t) n) certain supply hside rhs
  have hdual := Polyhedral.represents_side hregular (Polyhedral.rational_box hlower le_rfl)
    ⟨l, (hcontains l).mpr hlower⟩ (fun i hi => (he i hi).2) hfin hcertain hold rhs
  have hcounts : ∀ i ∈ Budget.active side, Budget.Counts (scalars n fun i => (l i + t i) / 2)
      (scalars n fun i => (t i - l i) / 2) i := fun i hi =>
    Budget.counts_scalars _ _ ((Budget.mem_active hside).mp hi).1
  obtain ⟨cs, next, hfull, -, -, -, hprices⟩ := Budget.exists_represents_written
    ((Nat.cast_nonneg n).trans hgamma) hside hcounts
    (fun i hi _ => by rw [coord_scalars _ hi]; linarith [hle i hi]) hold hcertain
    (fun y => Affine.eval_of_agree hfin hcertain fun _ _ => rfl) rhs
  have hpolyhedral : (d.geometry solver).reformulate
      = Polyhedral.reformulate (Polyhedral.box n (scalars n l) (scalars n t) n) := by
    simp only [Polyhedral.geometry, hpolyhedron]
  have hbudget : b.geometry.reformulate = Budget.reformulate (.finite gamma)
      (scalars n fun i => (l i + t i) / 2) (scalars n fun i => (t i - l i) / 2) := by
    simp only [Budget.geometry, hdata, hb]
  rw [hpolyhedral, hbudget]
  refine ⟨_, _, cs, next, hbox, hfull, fun x => ?_⟩
  rw [hdual.completable_iff, hprices.completable_iff]
  simp only [hcontains, Budget.region_iff_withinBounds hle hgamma, writtenAt, mul_comm]

/-! ## Two sets for the same bounds -/

namespace UncertaintySet

/-- Two sets that answer alike for a model: the same worst case for every linear function, the same
cuts and scenarios for all rational values of the decision variables. -/
structure Interchangeable (model : Model Extended) (solver : Solver Extended)
    (s s' : UncertaintySet Extended) : Prop where
  worstCase : ∀ c : ℕ → ℚ, ∃ u : ℕ → ℚ,
    s.worstCase (scalars model.parameters.length c) solver
        = .ok (scalars model.parameters.length u)
      ∧ s'.worstCase (scalars model.parameters.length c) solver
        = .ok (scalars model.parameters.length u)
  cuts : ∀ (values : Valuation Extended) (is : List ℤ), values.Finite →
    (∀ p ∈ model.sidesAlong is, p.1.Finite) →
    ((cuts model values is solver).perform s).1 = ((cuts model values is solver).perform s').1
  scenarios : ∀ (values : Valuation Extended) (is : List ℤ), values.Finite →
    (∀ p ∈ model.sidesAlong is, p.1.Finite) →
    ((scenarios model values is solver).perform s).1
      = ((scenarios model values is solver).perform s').1

section

variable {s s' : UncertaintySet Extended} {model : Model Extended} {solver : Solver Extended}
  {plane plane' : CuttingPlane Extended}

theorem worstCase_geometryWith (s : UncertaintySet Extended) (g : List Extended) :
    (s.geometryWith solver).worstCase g = s.worstCase g solver := by
  cases s <;> rfl

/-- Sets with the same forms, the same tolerance and the same worst cases are interchangeable. -/
theorem interchangeable_of_worstCase (hs : s.plane? = some plane) (hs' : s'.plane? = some plane')
    (hprep : plane.Prepared model) (hforms : plane.forms = plane'.forms)
    (htol : plane.cutTol = plane'.cutTol)
    (hworst : ∀ c : ℕ → ℚ, ∃ u : ℕ → ℚ,
      s.worstCase (scalars model.parameters.length c) solver
          = .ok (scalars model.parameters.length u)
        ∧ s'.worstCase (scalars model.parameters.length c) solver
          = .ok (scalars model.parameters.length u)) :
    Interchangeable model solver s s' := by
  have hsides : ∀ (values : Valuation Extended) (is : List ℤ), values.Finite →
      (∀ p ∈ model.sidesAlong is, p.1.Finite) → ∀ i ∈ is, ∀ q c, plane.form? i = .ok q →
      model.constraint? i = .ok c → ∀ side ∈ c.sides,
        CuttingPlane.sideWorstCase (s.geometryWith solver) q side.1 (model.point values)
          = CuttingPlane.sideWorstCase (s'.geometryWith solver) q side.1 (model.point values) := by
    intro values is hfin hfinite i hi q c hq hc side hside
    have hmatrix : c.expr.coefficientMatrix model.parameters.length model.decisions.length
        = .ok q := by
      obtain ⟨c', hc', hmatrix⟩ := hprep.of_mem (CuttingPlane.mem_forms_of_form? hq)
      exact Except.ok.inj (hc.symm.trans hc') ▸ hmatrix
    have hmem : (q, side) ∈ model.sidesAlong is := List.mem_flatMap.mpr ⟨i, hi, by
      rw [Model.sidesAt_eq hc hmatrix]
      exact List.mem_map_of_mem hside⟩
    have hshape := Mixed.shaped_coefficientMatrix hmatrix (hfinite _ hmem)
    refine CuttingPlane.sideWorstCase_congr ?_
    rw [Model.point_eq model hfin, sensitivity_spec hshape (Bounded.sides_spec hside).1.isFinite,
      worstCase_geometryWith, worstCase_geometryWith]
    obtain ⟨u, hu, hu'⟩ := hworst (slope q model.decisions.length side.1.rat
      (Decision.valuesAt model.decisions values.point))
    rw [hu, hu']
  refine ⟨hworst, fun values is hfin hfinite => ?_, fun values is hfin hfinite => ?_⟩
  · rw [perform_cuts hs, perform_cuts hs']
    exact CuttingPlane.cuts_congr hforms htol (hsides values is hfin hfinite)
  · rw [perform_scenarios hs, perform_scenarios hs',
      CuttingPlane.scenarios_congr hforms (hsides values is hfin hfinite)]

end

/-- If all parameters have rational bounds, a set without set constraints and one with a budget of
at least the number of the parameters, infinite or not, and without nominal values and deviations of
its own are interchangeable. The setup of one succeeds if that of the other does. Afterwards they
have the same worst cases, entry by entry, and answer the same cuts and scenarios at all points, for
all indices, be they registered or not. What a rational budget writes for a side admits the decision
values that the dual constraints of the box admit. -/
theorem full_budget_interchangeable {model : Model Extended} (hbounds : model.Boxed)
    {d : Polyhedral Extended} (hbox : d.isBox = true) {b : Budget Extended}
    (hnominal : b.givenNominal = none) (hdeviation : b.givenDeviation = none)
    (hgamma : Budget.Lasts b.gamma model.parameters.length)
    (plane plane' : CuttingPlane Extended) (hindices : plane.indices = plane'.indices)
    (report : Bool) (prefs : Preferences Extended) (solver : Solver Extended) :
    ((∃ s, (setup model report prefs).Yields (polyhedral plane d) ⟨⟩ s)
      ↔ ∃ s', (setup model report prefs).Yields (budget plane' b) ⟨⟩ s')
    ∧ ∀ s s', (setup model report prefs).Yields (polyhedral plane d) ⟨⟩ s →
      (setup model report prefs).Yields (budget plane' b) ⟨⟩ s' →
      Interchangeable model solver s s'
        ∧ ∀ gamma : ℚ, b.gamma = .finite gamma →
          (s.geometryWith solver).AdmitAlike (s'.geometryWith solver)
            model.parameters.length := by
  obtain ⟨l, t, hlt, hle⟩ := hbounds.exists_bounds
  have hdata := Budget.dataFor_of_bounds hnominal hdeviation hlt
  have hformsOf : plane.formsOf model = plane'.formsOf model := by
    rw [CuttingPlane.formsOf, CuttingPlane.formsOf, hindices]
  simp only [yields_setup (s := polyhedral plane d) rfl, yields_setup (s := budget plane' b) rfl]
  constructor
  · constructor
    · rintro ⟨_, forms, p, hforms, -⟩
      refine ⟨_, forms, hformsOf ▸ hforms, by simp [hnominal], by simp [hdeviation], ?_, rfl⟩
      rw [hdata]
      exact Budget.unboundedParameter?_scalars _ _ _ _
    · rintro ⟨_, forms, hforms, -⟩
      exact ⟨_, forms, _, hformsOf ▸ hforms, Polyhedral.polyhedronOf_of_isBox hbox _ _ _, rfl⟩
  · rintro _ _ ⟨forms, p, hforms, hp, rfl⟩ ⟨forms', hforms', -, -, -, rfl⟩
    obtain rfl := Except.ok.inj ((hforms.symm.trans hformsOf).trans hforms')
    rw [Polyhedral.polyhedronOf_of_isBox hbox] at hp
    obtain rfl := Except.ok.inj hp
    have hbudget : ({ b with data := some (b.dataFor model) } : Budget Extended).data = _ :=
      congrArg some hdata
    refine ⟨interchangeable_of_worstCase rfl rfl hforms rfl rfl fun c => ?_, fun gamma hb => ?_⟩
    · refine ⟨Budget.corner l t c, ?_, Budget.worstCase_of_lasts hle hbudget hgamma c⟩
      refine Polyhedral.worstCase_of_isBox ?_ ?_ solver c
      exacts [hbox, congrArg some hlt]
    · exact admitAlike_of_lasts hle (Budget.lasts_finite.mp (hb ▸ hgamma)) (by rw [hlt]) hbudget hb
        solver

end UncertaintySet

/-! ## A price and a fixed fee -/

namespace Bazaar

def goods : Decision Extended :=
  ⟨0, 0, "x", .finite 0, .posInf, ⟨0, none, .decision 0, false, false⟩⟩

def price : Parameter Extended := ⟨0, 0, .text "u", .finite 1, .finite 3⟩

/-- A fee whose bounds agree. -/
def fee : Parameter Extended := ⟨0, 1, .text "v", .finite 4, .finite 4⟩

/-- `u x + v ≤ 10`. -/
def bill : UncertainConstraint Extended :=
  ⟨⟨[(goods, .ofParameter price)], .ofParameter fee⟩, .negInf, .finite 10⟩

def model : Model Extended where
  id := 0
  defaultSet := 0
  decisions := [goods]
  parameters := [price, fee]
  certain := []
  uncertain := [⟨0, bill⟩]
  assignment := []
  objective := .feasibility
  result := none

/-- The bill is registered. -/
def plane : CuttingPlane Extended := ⟨some 0, [0], [], .truth false, .real Scalar.cutTol⟩

def budget : Budget Extended := ⟨.finite 2, none, none, none⟩

def form : SparseMatrix Extended := ⟨[[(0, 1)], [(1, 1)], []], 2⟩

/-- Five goods. -/
def values : Valuation Extended := fun _ => some (.finite 5)

theorem boxed_model : model.Boxed := by
  simp only [Model.Boxed, model, List.forall_mem_cons]
  exact ⟨⟨1, 3, rfl, rfl, by norm_num⟩, ⟨4, 4, rfl, rfl, le_rfl⟩, by simp⟩

theorem matrix_eq : bill.expr.coefficientMatrix 2 1 = .ok form :=
  SparseMatrix.eq_ok_of_rows (by decide +kernel)

theorem exists_setup (prefs : Preferences Extended) :
    ∃ s, (UncertaintySet.setup model false prefs).Yields (.polyhedral plane .new) ⟨⟩ s :=
  ⟨_, (UncertaintySet.yields_setup (s := .polyhedral plane .new) rfl).mpr ⟨[(0, form)], _,
    mapM_eq_ok.mpr (.cons (CuttingPlane.formsOf_step.mpr ⟨rfl, _, rfl, matrix_eq⟩) .nil),
    Polyhedral.polyhedronOf_of_isBox rfl _ _ _, rfl⟩⟩

/-- A budget of two for the price and the fee, which needs none, gives the cuts of the box for five
goods, and dual constraints for the same decisions. -/
theorem full_budget_interchangeable_bill : model.Boxed ∧ Budget.Lasts budget.gamma 2
    ∧ ∃ s s' : UncertaintySet Extended,
      (UncertaintySet.setup model false []).Yields (.polyhedral plane .new) ⟨⟩ s
      ∧ (UncertaintySet.setup model false []).Yields (.budget plane budget) ⟨⟩ s'
      ∧ ((UncertaintySet.cuts model values [0] (.ofTable [])).perform s).1
        = ((UncertaintySet.cuts model values [0] (.ofTable [])).perform s').1
      ∧ (s.geometryWith (.ofTable [])).AdmitAlike (s'.geometryWith (.ofTable [])) 2 := by
  have hlasts : Budget.Lasts budget.gamma model.parameters.length := by
    rw [budget, Budget.lasts_finite]
    norm_num [model]
  obtain ⟨hiff, halike⟩ := UncertaintySet.full_budget_interchangeable boxed_model
    (d := .new) rfl (b := budget) rfl rfl hlasts plane plane rfl false [] (.ofTable [])
  obtain ⟨s, hs⟩ := exists_setup []
  obtain ⟨s', hs'⟩ := hiff.mp ⟨s, hs⟩
  obtain ⟨hinterchangeable, hadmit⟩ := halike s s' hs hs'
  refine ⟨boxed_model, hlasts, s, s', hs, hs', hinterchangeable.cuts values [0] ?_ ?_,
    hadmit 2 rfl⟩
  · intro c x hx
    obtain rfl := Option.some.inj hx
    rfl
  · have hsides : model.sidesAt 0 = bill.sides.map fun side => (form, side) :=
      Model.sidesAt_eq rfl matrix_eq
    rw [Model.sidesAlong, List.flatMap_singleton, hsides, List.forall_mem_map]
    intro side _
    simp [SparseMatrix.Finite, form]

end Bazaar

end RobustOpt
