import RobustOpt.Proofs.Finiteness
import RobustOpt.Proofs.Scenarios

/-!
# Budget sets compute finite numbers

A parameter without a finite nominal value or deviation may stand in a budget set as long as no
registered constraint depends on it. A setup looks for such parameters among the stored entries of
the forms, the worst case skips those whose coefficient is zero at the present decision values, and
a reformulation those whose row is zero. The three agree well enough: whatever is read, answered or
written for a registered constraint is finite.

## Main definitions

* `Budget.ComputesFinite`: everything a set computes for a model at given values is finite.

## Main statements

* `Budget.wellFormed_of_build`: what is known of a set that was built.
* `Budget.exists_reform_finite`: a reformulation goes through, with finite coefficients.
* `UncertaintySet.budget_computesFinite`: no undefined or infinite number leaves a budget set.
-/

namespace RobustOpt

open Finset Bilinear

/-! ## Sets as they are built -/

/-- A number that is not less than zero as a literal is not as a scalar. -/
theorem Literal.lt_zero_of_less {v : Literal Extended} {x : Extended}
    (hless : v.less (.integer 0) = .ok false) (hx : v.toScalar = .ok x) :
    Scalar.lt x 0 = false := by
  have hzero : (Literal.integer 0 : Literal Extended).numeric? = some 0 := rfl
  cases v with
  | absent | text | list => cases hless
  | truth b =>
    obtain rfl := Except.ok.inj hx
    cases b <;> rfl
  | integer i =>
    have hi : ¬ i < 0 := by
      have h : Extended.lt (.finite i) 0 = false := Except.ok.inj hless
      simpa [Extended.zero_eq, Extended.lt] using h
    simp only [toScalar] at hx
    split_ifs at hx
    obtain rfl := Except.ok.inj hx
    simpa [Extended.zero_eq, Scalar.ofRat, Scalar.lt, Extended.lt] using hi
  | real y =>
    obtain rfl := Except.ok.inj hx
    have h : Extended.lt (Extended.ofScalar y) 0 = false := Except.ok.inj hless
    cases y <;> exact h

namespace Grid

theorem length_stack {gs : List (Grid Extended)} {g : Grid Extended} (h : stack gs = .ok g)
    (hgs : ∀ k ∈ gs, k.entries.length = k.shape.prod) : g.entries.length = g.shape.prod := by
  cases gs with
  | nil =>
    obtain rfl := Except.ok.inj h
    rfl
  | cons k gs =>
    simp only [stack] at h
    split_ifs at h with hall
    obtain rfl := Except.ok.inj h
    have hshape : ∀ l ∈ k :: gs, l.entries.length = k.shape.prod := by
      refine List.forall_mem_cons.mpr ⟨hgs k (by simp), fun l hl => ?_⟩
      rw [hgs l (by simp [hl])]
      congr 1
      simpa using List.all_eq_true.mp hall l hl
    rw [List.length_flatMap, List.map_congr_left hshape]
    simp only [List.map_const', List.sum_replicate, List.length_cons, List.prod_cons, smul_eq_mul]

/-- A literal that is not a list is a single entry. -/
theorem ofLiteral_eq_ok {v : Literal Extended} (hv : ∀ items, v ≠ .list items) {g : Grid Extended}
    (h : ofLiteral v = .ok g) : ∃ x, entryOf v = .ok x ∧ g = ⟨[], [x]⟩ := by
  rw [ofLiteral.eq_2 v hv] at h
  obtain ⟨x, hx, h⟩ := bind_eq_ok.mp h
  exact ⟨x, hx, (pure_eq_ok.mp h).symm⟩

mutual

/-- Numeric data have as many entries as their shape says. -/
theorem length_ofLiteral : ∀ (v : Literal Extended) (g : Grid Extended), ofLiteral v = .ok g →
    g.entries.length = g.shape.prod
  | .list items => by
    intro g h
    rw [ofLiteral] at h
    obtain ⟨gs, hgs, h⟩ := bind_eq_ok.mp h
    exact length_stack h (length_ofLiterals items gs hgs)
  | .absent | .truth _ | .integer _ | .real _ | .text _ => by
    intro g h
    obtain ⟨x, -, rfl⟩ := ofLiteral_eq_ok (by simp) h
    rfl

theorem length_ofLiterals : ∀ (vs : List (Literal Extended)) (gs : List (Grid Extended)),
    ofLiterals vs = .ok gs → ∀ g ∈ gs, g.entries.length = g.shape.prod
  | [] => by
    intro gs h
    obtain rfl := Except.ok.inj h
    exact List.forall_mem_nil _
  | v :: vs => by
    intro gs h
    obtain ⟨g, hg, h⟩ := bind_eq_ok.mp h
    obtain ⟨rest, hrest, h⟩ := bind_eq_ok.mp h
    obtain rfl := pure_eq_ok.mp h
    exact List.forall_mem_cons.mpr ⟨length_ofLiteral v g hg, length_ofLiterals vs rest hrest⟩

end

theorem mem_stack {gs : List (Grid Extended)} {g : Grid Extended} (h : stack gs = .ok g)
    {x : Extended} (hx : x ∈ g.entries) : ∃ k ∈ gs, x ∈ k.entries := by
  cases gs with
  | nil =>
    obtain rfl := Except.ok.inj h
    cases hx
  | cons k gs =>
    simp only [stack] at h
    split_ifs at h
    obtain rfl := Except.ok.inj h
    exact List.mem_flatMap.mp hx

end Grid

namespace Budget

theorem nonneg_entryOf {v : Literal Extended} {x : Extended} (hneg : anyNegative v = .ok false)
    (hx : Grid.entryOf v = .ok x) : Scalar.lt x 0 = false := by
  cases v with
  | absent =>
    rw [anyNegative.eq_2 _ (by simp)] at hneg
    cases hneg
  | list => cases hx
  | truth | integer | real | text =>
    rw [anyNegative.eq_2 _ (by simp)] at hneg
    exact Literal.lt_zero_of_less hneg hx

mutual

/-- Data without a negative literal have no negative entry. -/
theorem nonneg_ofLiteral : ∀ (v : Literal Extended) (g : Grid Extended),
    anyNegative v = .ok false → Grid.ofLiteral v = .ok g →
    ∀ x ∈ g.entries, Scalar.lt x 0 = false
  | .list items => by
    intro g hneg h
    rw [Grid.ofLiteral] at h
    obtain ⟨gs, hgs, h⟩ := bind_eq_ok.mp h
    intro x hx
    obtain ⟨k, hk, hx⟩ := Grid.mem_stack h hx
    exact nonneg_ofLiterals items gs hneg hgs k hk x hx
  | .absent | .truth _ | .integer _ | .real _ | .text _ => by
    intro g hneg h
    obtain ⟨x, hx, rfl⟩ := Grid.ofLiteral_eq_ok (by simp) h
    exact List.forall_mem_singleton.mpr (nonneg_entryOf hneg hx)

theorem nonneg_ofLiterals : ∀ (vs : List (Literal Extended)) (gs : List (Grid Extended)),
    anyNegativeIn vs = .ok false → Grid.ofLiterals vs = .ok gs →
    ∀ g ∈ gs, ∀ x ∈ g.entries, Scalar.lt x 0 = false
  | [] => by
    intro gs _ h
    obtain rfl := Except.ok.inj h
    exact List.forall_mem_nil _
  | v :: vs => by
    intro gs hneg h
    obtain ⟨here, hhere, hneg⟩ := bind_eq_ok.mp hneg
    obtain ⟨later, hlater, hneg⟩ := bind_eq_ok.mp hneg
    obtain ⟨rfl, rfl⟩ := Bool.or_eq_false_iff.mp (pure_eq_ok.mp hneg)
    obtain ⟨g, hg, h⟩ := bind_eq_ok.mp h
    obtain ⟨rest, hrest, h⟩ := bind_eq_ok.mp h
    obtain rfl := pure_eq_ok.mp h
    exact List.forall_mem_cons.mpr
      ⟨nonneg_ofLiteral v g hhere hg, nonneg_ofLiterals vs rest hlater hrest⟩

end

/-- Nominal values or deviations as they are given to a set, none if they are absent. -/
def given {α : Type} [Scalar α] : Literal α → Except (Fault α) (Option (Grid α))
  | .absent => pure none
  | v => some <$> Grid.ofLiteral v

theorem given_eq_ok {v : Literal Extended} {r : Option (Grid Extended)} (h : given v = .ok r)
    {g : Grid Extended} (hg : g ∈ r) : v ≠ .absent ∧ Grid.ofLiteral v = .ok g := by
  obtain rfl := Option.mem_def.mp hg
  by_cases hv : v = .absent
  · subst hv
    cases h
  · refine ⟨hv, ?_⟩
    rw [given.eq_2 v hv] at h
    obtain ⟨g', hg', heq⟩ := map_eq_ok.mp h
    exact Option.some.inj heq ▸ hg'

/-- What is checked and kept when a set is built. -/
theorem build_eq_ok {gamma nominal deviation : Literal Extended} {b : Budget Extended}
    (h : build gamma nominal deviation = .ok b) :
    gamma.less (.integer 0) = .ok false
      ∧ (deviation ≠ .absent → anyNegative deviation = .ok false)
      ∧ gamma.toScalar = .ok b.gamma ∧ given nominal = .ok b.givenNominal
      ∧ given deviation = .ok b.givenDeviation := by
  have hrest : (do
      let gamma ← gamma.toScalar
      return (⟨gamma, ← given nominal, ← given deviation, none⟩ : Budget Extended)) = .ok b →
      gamma.toScalar = .ok b.gamma ∧ given nominal = .ok b.givenNominal
        ∧ given deviation = .ok b.givenDeviation := by
    intro h
    obtain ⟨g, hg, h⟩ := bind_eq_ok.mp h
    obtain ⟨n, hn, h⟩ := bind_eq_ok.mp h
    obtain ⟨d, hd, h⟩ := bind_eq_ok.mp h
    obtain rfl := pure_eq_ok.mp h
    exact ⟨hg, hn, hd⟩
  unfold build at h
  obtain ⟨small, hsmall, h⟩ := bind_eq_ok.mp h
  cases small with
  | true => cases h
  | false =>
    simp only [Bool.false_eq_true, if_false] at h
    refine ⟨hsmall, ?_⟩
    split at h
    · exact ⟨fun hne => absurd rfl hne, hrest h⟩
    · obtain ⟨negative, hnegative, h⟩ := bind_eq_ok.mp h
      cases negative with
      | true => cases h
      | false => exact ⟨fun _ => hnegative, hrest h⟩

/-- A set that was built with a finite budget is well-formed. -/
theorem wellFormed_of_build {gamma nominal deviation : Literal Extended} {b : Budget Extended}
    (h : build gamma nominal deviation = .ok b) (hfin : Scalar.isFinite b.gamma = true) :
    b.WellFormed := by
  obtain ⟨hless, hneg, hgamma, hnominal, hdeviation⟩ := build_eq_ok h
  obtain ⟨q, hq⟩ := Extended.isFinite_iff.mp hfin
  have hlength : ∀ {v : Literal Extended} {r : Option (Grid Extended)}, given v = .ok r →
      ∀ g ∈ r, ∀ size, g.shape = [size] → g.entries.length = size := by
    intro v r hr g hg size hshape
    rw [Grid.length_ofLiteral v g (given_eq_ok hr hg).2, hshape, List.prod_singleton]
  refine ⟨⟨q, hq, ?_⟩, hlength hnominal, hlength hdeviation, fun g hg => ?_⟩
  · have := Literal.lt_zero_of_less hless hgamma
    rw [hq, Extended.zero_eq, Extended.lt_finite] at this
    exact not_lt.mp (of_decide_eq_false this)
  · obtain ⟨hpresent, hgrid⟩ := given_eq_ok hdeviation hg
    exact nonneg_ofLiteral deviation g (hneg hpresent) hgrid

/-! ## Constraints of a side -/

section Reformulate

variable {nominal deviation : List Extended} {positions : List ℕ} {e : ℕ → Affine Extended}
  {y : Point} {nominalPart certain : Affine Extended}

theorem isFinite_expected (hnom : ∀ i ∈ positions, Scalar.isFinite (nominal.getD i 0) = true)
    (he : ∀ i ∈ positions, Scalar.isFinite ((e i).eval y.exact) = true)
    (hc : Scalar.isFinite (certain.eval y.exact) = true) :
    Scalar.isFinite ((expected nominal positions e certain).eval y.exact) = true := by
  rw [eval_expected hnom (fun i hi => (Extended.finite_rat (he i hi)).symm)
    (Extended.finite_rat hc).symm]
  rfl

/-- The auxiliary constraints of a side with finite data. -/
theorem isFinite_auxiliaryConstraints (gamma rhs : ℚ) (t p : ℕ → Column) (pi : Column)
    (hdev : ∀ i ∈ positions, Scalar.isFinite (deviation.getD i 0) = true)
    (he : ∀ i ∈ positions, Scalar.isFinite ((e i).eval y.exact) = true)
    (hz : Scalar.isFinite (nominalPart.eval y.exact) = true) :
    ∀ c ∈ auxiliaryConstraints gamma deviation positions e nominalPart rhs t p pi,
      c.IsFinite := by
  have hspread : ∀ k < positions.length,
      Scalar.isFinite (deviation.getD (positions.getD k 0) 0) = true
        ∧ Scalar.isFinite ((e (positions.getD k 0)).eval y.exact) = true := fun k hk =>
    ⟨hdev _ (getD_mem hk), he _ (getD_mem hk)⟩
  have haux : ∀ d : Column, Scalar.isFinite ((Affine.auxiliary d).eval y.exact) = true :=
    fun _ => rfl
  have hbudget : ∀ t ∈ [(Extended.finite gamma, pi)], Scalar.isFinite t.1 = true := by simp
  have hunit : ∀ t ∈ (List.range positions.length).map fun k => ((1 : Extended), p k),
      Scalar.isFinite t.1 = true := by simp
  have hpi := Affine.eval_addColumns hbudget (Extended.finite_rat hz).symm
  have hbound := Affine.eval_addColumns hunit hpi
  simp only [auxiliaryConstraints, List.forall_mem_cons, List.not_mem_nil, false_imp_iff,
    implies_true, and_true, LinearConstraint.isFinite_iff _ y, LinearConstraint.entrywise,
    LinearConstraint.atMost, List.zip_map', List.forall_mem_map, List.mem_range, hbound, haux,
    Affine.eval, Extended.isFinite_mul, Extended.isFinite_add, Extended.isFinite_neg,
    Extended.isFinite_finite]
  exact ⟨hspread, hspread⟩

/-- A side whose active parameters have finite data is reformulated by finite constraints. -/
theorem exists_reformulate_finite (gamma rhs : ℚ) {n : ℕ} {ds : List (Decision Extended)}
    {side : Side Extended} {w : ℕ → ℕ → ℚ} {o : ℕ → ℚ} (hside : side.HasEntries n ds.length w o)
    (hcounts : ∀ i ∈ active side, Counts nominal deviation i)
    (hcertain : ∀ y : Point, Scalar.isFinite (certain.eval y.exact) = true) (supply : Supply) :
    ∃ cs next, reformulate (.finite gamma) nominal deviation side certain (.finite rhs) ds supply
        = .ok (cs, next) ∧ ∀ c ∈ cs, c.IsFinite := by
  obtain ⟨e, he, hidle, hbusy⟩ := exists_reformulate gamma certain supply hside hcounts rhs
  -- any point will do: a value is finite where the coefficients are
  let y : Point := fun _ => 0
  have hslope : ∀ i ∈ active side, Scalar.isFinite ((e i).eval y.exact) = true := by
    intro i hi
    rw [(he i hi).2 y]
    rfl
  have hexpected := isFinite_expected (fun i hi => (hcounts i hi).1) hslope (hcertain y)
  by_cases h : Idle gamma deviation (active side)
  · refine ⟨_, _, hidle h, List.forall_mem_singleton.mpr ?_⟩
    rw [LinearConstraint.isFinite_iff _ y]
    exact List.forall_mem_singleton.mpr ⟨hexpected, rfl⟩
  · exact ⟨_, _, hbusy h, isFinite_auxiliaryConstraints gamma rhs _ _ _
      (fun i hi => (hcounts i hi).2) hslope hexpected⟩

end Reformulate

/-! ## What a set computes -/

/-- Everything that a set computes for the constraints registered to it is finite: the nominal
values and deviations that are read for a side, its worst case with the coefficients of the cut
there, the cuts that are answered, and the constraints that a reformulation adds. -/
structure ComputesFinite (b : Budget Extended) (plane : CuttingPlane Extended)
    (model : Model Extended) (point : List Extended) : Prop where
  sides : ∀ i ∈ plane.indices, ∃ q c nominal deviation, plane.form? i = .ok q
    ∧ model.constraint? i = .ok c ∧ b.data = some (nominal, deviation) ∧ ∀ side ∈ c.sides,
      (∃ parts, splitSide? q.toDense side.1 model.parameters.length = .ok parts
        ∧ ∀ x ∈ pick 0 (active parts) nominal ++ pick 0 (active parts) deviation,
          Scalar.isFinite x = true)
      ∧ ∃ u lhs, CuttingPlane.sideWorstCase b.geometry q side.1 point = .ok (u, lhs)
        ∧ Scalar.isFinite lhs = true
        ∧ ∀ k ∈ substitute q side.1 (u.map Scalar.toFinite), Scalar.isFinite k = true
  cuts : ∀ is cs, plane.cuts b.geometry model point is = .ok cs → ∀ c ∈ cs, c.IsFinite
  reform : ∀ is : List ℤ, (∀ i ∈ is, i ∈ plane.indices) → ∀ m supply, ∃ cs next,
    (plane.reform b.geometry model is).Yields (m, supply) ⟨⟩ (m.addConstraints cs, next)
      ∧ ∀ c ∈ cs, c.IsFinite

section Computes

variable {b : Budget Extended} {model : Model Extended} {q : SparseMatrix Extended}
  {gamma : ℚ} {forms : List (SparseMatrix Extended)}

/-- The worst case of a side only counts parameters with finite data. -/
theorem exists_sideWorstCase (hgamma : b.gamma = .finite gamma) (hset : b.IsSetUp model forms)
    (hq : Shaped q model.parameters.length model.decisions.length)
    (hA : OnlyUses q model.parameters.length (Counts (b.dataFor model).1 (b.dataFor model).2))
    {s : Extended} (hs : Scalar.isFinite s = true) (x : ℕ → ℚ) :
    ∃ u v z, CuttingPlane.sideWorstCase b.geometry q s (scalars model.decisions.length x ++ [1])
        = .ok (u, .finite z) ∧ u.map Scalar.toFinite = scalars model.parameters.length v := by
  have hu : b.geometry.worstCase
      (scalars model.parameters.length (slope q model.decisions.length s.rat x)) = _ :=
    worstCase_eq hset.data hgamma hset.nominal hset.deviation fun i hi hn =>
      hA.slope_eq_zero hi hn _ _ _
  have hv := map_toFinite ((List.range model.parameters.length).map fun i =>
    (b.dataFor model).1.getD i 0 + if slope q model.decisions.length s.rat x i = 0 then 0
      else (b.dataFor model).2.getD i 0 * .finite (greedy gamma (b.dataFor model).2
        model.parameters.length (slope q model.decisions.length s.rat x) i))
  rw [List.length_map, List.length_range] at hv
  exact ⟨_, _, _, CuttingPlane.sideWorstCase_spec hq hs hu hv, hv⟩

/-- The nominal values and deviations that are read for a side. -/
theorem exists_splitSide (hq : Shaped q model.parameters.length model.decisions.length)
    {nominal deviation : List Extended}
    (hA : OnlyUses q model.parameters.length (Counts nominal deviation)) {s : Extended}
    (hs : Scalar.isFinite s = true) :
    ∃ parts, splitSide? q.toDense s model.parameters.length = .ok parts
      ∧ ∀ x ∈ pick 0 (active parts) nominal ++ pick 0 (active parts) deviation,
        Scalar.isFinite x = true := by
  refine ⟨signedSide q _ _ s.rat, splitSide_spec hq hs, List.forall_mem_append.mpr ⟨?_, ?_⟩⟩
  · exact List.forall_mem_map.mpr fun i hi => (counts_of_active hA hi).1
  · exact List.forall_mem_map.mpr fun i hi => (counts_of_active hA hi).2

/-- A side is reformulated by finite constraints. -/
theorem exists_reformSide (hgamma : b.gamma = .finite gamma) (hset : b.IsSetUp model forms)
    (hq : Shaped q model.parameters.length model.decisions.length)
    (hA : OnlyUses q model.parameters.length (Counts (b.dataFor model).1 (b.dataFor model).2))
    {s : Extended} (hs : Scalar.isFinite s = true) (rhs : ℚ) (supply : Supply) :
    ∃ cs next, CuttingPlane.reformSide b.geometry model q.toDense s (.finite rhs) supply
        = .ok (cs, next) ∧ ∀ c ∈ cs, c.IsFinite := by
  obtain ⟨certain, hcertain, hfin⟩ := Affine.exists_ofCoefficients model.decisions
    (fun j => s.rat * q.coef model.parameters.length j) rfl
  have hside := hasEntries_signedSide q model.parameters.length model.decisions.length s.rat
  obtain ⟨cs, next, hcs, hall⟩ := exists_reformulate_finite gamma rhs hside
    (fun i hi => counts_of_active hA hi) hfin supply
  refine ⟨cs, next, ?_, hall⟩
  rw [CuttingPlane.reformSide, splitSide_spec hq hs]
  refine bind_eq_ok.mpr ⟨_, rfl, bind_eq_ok.mpr ⟨certain, hcertain, ?_⟩⟩
  simp only [geometry, hset.data, hgamma]
  exact hcs

/-- The cut of a side at its worst case has finite coefficients. -/
theorem isFinite_of_sideCut {plane : CuttingPlane Extended} (hgamma : b.gamma = .finite gamma)
    (hset : b.IsSetUp model forms)
    (hq : Shaped q model.parameters.length model.decisions.length)
    (hA : OnlyUses q model.parameters.length (Counts (b.dataFor model).1 (b.dataFor model).2))
    {s rhs : Extended} (hs : Scalar.isFinite s = true) (hrhs : Scalar.isFinite rhs = true)
    (x : ℕ → ℚ) {c : LinearConstraint Extended}
    (h : plane.sideCut b.geometry model q s rhs (scalars model.decisions.length x ++ [1])
      = .ok (some c)) : c.IsFinite := by
  obtain ⟨u, v, z, hworst, hv⟩ := exists_sideWorstCase hgamma hset hq hA hs x
  obtain ⟨⟨u', lhs⟩, hu', h⟩ := bind_eq_ok.mp h
  obtain ⟨rfl, rfl⟩ := Prod.mk.inj (Except.ok.inj (hworst.symm.trans hu'))
  obtain ⟨violated, -, h⟩ := bind_eq_ok.mp h
  cases violated with
  | false => cases pure_eq_ok.mp h
  | true =>
    obtain ⟨e, he, h⟩ := bind_eq_ok.mp h
    obtain rfl := Option.some.inj (pure_eq_ok.mp h)
    rw [hv, substitute_spec hq hs] at he
    obtain ⟨e', he', hfin⟩ := Affine.exists_ofCoefficients model.decisions
      (weight q model.parameters.length s.rat v) rfl
    obtain rfl := Except.ok.inj (he'.symm.trans he)
    rw [LinearConstraint.isFinite_iff _ fun _ => 0]
    exact List.forall_mem_singleton.mpr ⟨hfin _, hrhs⟩

/-- A loop whose steps add finite constraints to the master does so as a whole. -/
theorem exists_forM_finite {β : Type}
    {f : β → Action (Master Extended × Supply) (Fault Extended) PUnit} {l : List β}
    (hf : ∀ x ∈ l, ∀ m s, ∃ cs next, (f x).Yields (m, s) ⟨⟩ (m.addConstraints cs, next)
      ∧ ∀ c ∈ cs, c.IsFinite) (m : Master Extended) (s : Supply) :
    ∃ cs next, (l.forM f).Yields (m, s) ⟨⟩ (m.addConstraints cs, next)
      ∧ ∀ c ∈ cs, c.IsFinite := by
  obtain ⟨⟨m', next⟩, hrun, cs, rfl, hcs⟩ := Action.exists_yields_forM (f := f) (l := l)
    (s := (m, s)) (fun _ t => ∃ cs, t.1 = m.addConstraints cs ∧ ∀ c ∈ cs, c.IsFinite)
    ⟨[], by simp, List.forall_mem_nil _⟩ (by
      rintro done x ⟨m', s'⟩ hdone ⟨cs, rfl, hcs⟩
      obtain ⟨ds, next, hx, hds⟩ := hf x (hdone.subset (by simp)) (m.addConstraints cs) s'
      exact ⟨_, hx, cs ++ ds, by simp, List.forall_mem_append.mpr ⟨hcs, hds⟩⟩)
  exact ⟨cs, next, hrun, hcs⟩

/-- A reformulation of registered constraints goes through, with finite coefficients. -/
theorem exists_reform_finite {plane : CuttingPlane Extended} (hgamma : b.gamma = .finite gamma)
    (hset : b.IsSetUp model forms) (hprep : plane.Prepared model)
    (hforms : ∀ p ∈ plane.forms, Shaped p.2 model.parameters.length model.decisions.length
      ∧ OnlyUses p.2 model.parameters.length (Counts (b.dataFor model).1 (b.dataFor model).2))
    {is : List ℤ} (his : ∀ i ∈ is, i ∈ plane.indices) (m : Master Extended) (supply : Supply) :
    ∃ cs next, (plane.reform b.geometry model is).Yields (m, supply) ⟨⟩ (m.addConstraints cs, next)
      ∧ ∀ c ∈ cs, c.IsFinite := by
  refine exists_forM_finite (fun i hi m s => ?_) m supply
  obtain ⟨q, c, hq, hmem, hc, -⟩ := hprep.form?_eq (his i hi)
  obtain ⟨hshape, hA⟩ := hforms _ hmem
  obtain ⟨cs, next, hrun, hcs⟩ := exists_forM_finite
    (f := CuttingPlane.addSide b.geometry model q.toDense) (l := c.sides) (fun side hside m s => by
      obtain ⟨hsign, hfin⟩ := Bounded.sides_spec hside
      obtain ⟨rhs, hrhs⟩ := Extended.isFinite_iff.mp hfin
      obtain ⟨cs, next, hcs, hall⟩ := exists_reformSide hgamma hset hshape hA hsign.isFinite rhs s
      refine ⟨cs, next, ?_, hall⟩
      rw [CuttingPlane.addSide, Action.yields_get_bind, Action.yields_lift_bind, hrhs]
      exact ⟨_, hcs, Action.yields_set.mpr rfl⟩) m s
  refine ⟨cs, next, ?_, hcs⟩
  rw [CuttingPlane.reformAt, Action.yields_lift_bind]
  refine ⟨q, hq, ?_⟩
  rw [Action.yields_lift_bind]
  exact ⟨c, hc, hrun⟩

/-- A set that holds the data of a model only computes finite numbers for it. -/
theorem computesFinite {plane : CuttingPlane Extended} (hgamma : b.gamma = .finite gamma)
    (hset : b.IsSetUp model (plane.forms.map Prod.snd)) (hprep : plane.Prepared model)
    (hfin : ∀ i c, model.constraint? i = .ok c → c.expr.Finite) (x : ℕ → ℚ) :
    b.ComputesFinite plane model (scalars model.decisions.length x ++ [1]) := by
  have hforms : ∀ p ∈ plane.forms, Shaped p.2 model.parameters.length model.decisions.length
      ∧ OnlyUses p.2 model.parameters.length
        (Counts (b.dataFor model).1 (b.dataFor model).2) := by
    intro p hp
    obtain ⟨c, hc, hmatrix⟩ := hprep.of_mem hp
    have hshape := (hfin p.1 c hc).shaped hmatrix
    exact ⟨hshape, hset.onlyUses (List.mem_map_of_mem hp) hshape⟩
  refine ⟨fun i hi => ?_, fun is cs h c hc => ?_,
    fun is his => exists_reform_finite hgamma hset hprep hforms his⟩
  · obtain ⟨q, c, hq, hmem, hc, -⟩ := hprep.form?_eq hi
    obtain ⟨hshape, hA⟩ := hforms _ hmem
    refine ⟨q, c, _, _, hq, hc, hset.data, fun side hside => ?_⟩
    have hsign := (Bounded.sides_spec hside).1.isFinite
    obtain ⟨u, v, z, hworst, hv⟩ := exists_sideWorstCase hgamma hset hshape hA hsign x
    refine ⟨exists_splitSide hshape hA hsign, u, _, hworst, rfl, ?_⟩
    rw [hv, substitute_spec hshape hsign]
    exact fun k hk => isFinite_of_mem_scalars hk
  · obtain ⟨i, -, q, k, hq, -, side, hside, hcut⟩ := (CuttingPlane.cuts_spec h).2 c hc
    obtain ⟨hshape, hA⟩ := hforms _ (CuttingPlane.mem_forms_of_form? hq)
    obtain ⟨hsign, hrhs⟩ := Bounded.sides_spec hside
    exact isFinite_of_sideCut hgamma hset hshape hA hsign.isFinite hrhs x hcut

end Computes

end Budget

/-- A set that was built with a finite budget, and whose setup for a model with finite coefficients
went through, computes nothing but finite numbers for the constraints registered to it, at all
finite values of the decision variables. Parameters may lack a finite nominal value or deviation,
and the set may hold the data of an earlier setup. -/
theorem UncertaintySet.budget_computesFinite {gamma nominal deviation : Literal Extended}
    {b : Budget Extended} (hb : Budget.build gamma nominal deviation = .ok b)
    (hgamma : Scalar.isFinite b.gamma = true) (data : Option (List Extended × List Extended))
    {model : Model Extended} (hfin : ∀ i c, model.constraint? i = .ok c → c.expr.Finite)
    {plane : CuttingPlane Extended} {report : Bool} {prefs : Preferences Extended} {r : Unit}
    {s' : UncertaintySet Extended}
    (h : (setup model report prefs).Yields (budget plane { b with data := data }) r s')
    {values : Valuation Extended} (hvalues : values.Finite) :
    ∃ plane' b', s' = budget plane' b' ∧ plane'.indices = plane.indices
      ∧ b'.ComputesFinite plane' model (model.point values) := by
  have hchecked : (budget plane { b with data := data }).Checked :=
    (Budget.wellFormed_withData data).mpr (Budget.wellFormed_of_build hb hgamma)
  have hsetup := (yields_setup (s := budget plane { b with data := data }) rfl).mp h
  have hdata := hsetup.hasData hchecked
  obtain ⟨forms, hforms, -, -, -, rfl⟩ := hsetup
  obtain ⟨q, hq⟩ := Extended.isFinite_iff.mp hgamma
  refine ⟨_, _, rfl, rfl, ?_⟩
  have hbudget : Budget.gamma { b with data := some (b.dataFor model) } = .finite q := hq
  rw [model.point_eq hvalues]
  exact Budget.computesFinite hbudget hdata hforms hfin _

/-! ## A toll and a parameter that nothing depends on -/

namespace Crossing

def trips : Decision Extended :=
  ⟨0, 0, "x", .finite 0, .posInf, ⟨0, none, .decision 0, false, false⟩⟩

def toll : Parameter Extended := ⟨0, 0, .text "u", .finite 1, .finite 3⟩

/-- A parameter without an upper bound. -/
def delay : Parameter Extended := ⟨0, 1, .text "v", .finite 0, .posInf⟩

/-- `u x ≤ 10`. -/
def fare : UncertainConstraint Extended :=
  ⟨⟨[(trips, .ofParameter toll)], .ofConstant 0⟩, .negInf, .finite 10⟩

def model : Model Extended where
  id := 0
  defaultSet := 0
  decisions := [trips]
  parameters := [toll, delay]
  certain := []
  uncertain := [⟨0, fare⟩]
  assignment := []
  objective := .feasibility
  result := none

def plane : CuttingPlane Extended := ⟨some 0, [0], [], .truth false, .real Scalar.cutTol⟩

def budget : Budget Extended := ⟨.finite 1, none, none, none⟩

def form : SparseMatrix Extended := ⟨[[(0, 1)], [], []], 2⟩

/-- Five trips. -/
def values : Valuation Extended := fun _ => some (.finite 5)

theorem matrix_eq : fare.expr.coefficientMatrix 2 1 = .ok form :=
  SparseMatrix.eq_ok_of_rows (by decide +kernel)

/-- The budget set after its setup. -/
def prepared : UncertaintySet Extended :=
  .budget { plane with forms := [(0, form)] } { budget with data := some (budget.dataFor model) }

theorem setup_prepared :
    (UncertaintySet.setup model false []).Yields (.budget plane budget) ⟨⟩ prepared :=
  (UncertaintySet.yields_setup (s := .budget plane budget) rfl).mpr ⟨[(0, form)],
    mapM_eq_ok.mpr (.cons (CuttingPlane.formsOf_step.mpr ⟨rfl, _, rfl, matrix_eq⟩) .nil),
    nofun, nofun, by decide +kernel, rfl⟩

theorem finite_fare : ∀ i c, model.constraint? i = .ok c → c.expr.Finite := by
  intro i c hc
  obtain ⟨k, hk, rfl⟩ := Model.exists_of_constraint? hc
  obtain rfl := List.mem_singleton.mp hk
  simp [fare, Mixed.Finite, Uncertain.Finite, Uncertain.ofConstant, Uncertain.ofParameter]

/-- The delay has no finite nominal value, which nothing that is computed for the fare shows. -/
theorem budget_computesFinite_fare :
    Budget.build (.real (.finite 1)) .absent .absent = .ok budget
    ∧ Scalar.isFinite budget.gamma = true ∧ values.Finite
    ∧ Scalar.isFinite ((budget.dataFor model).1.getD 1 0) = false
    ∧ ∃ s', (UncertaintySet.setup model false []).Yields (.budget plane budget) ⟨⟩ s'
      ∧ ∃ plane' b', s' = .budget plane' b' ∧ plane'.indices = [0]
        ∧ b'.ComputesFinite plane' model (model.point values) := by
  have hbuild : Budget.build (.real (.finite 1)) .absent .absent = .ok budget := rfl
  have hvalues : values.Finite := by
    intro c x hx
    obtain rfl := Option.some.inj hx
    rfl
  exact ⟨hbuild, rfl, hvalues, by decide +kernel, prepared, setup_prepared,
    UncertaintySet.budget_computesFinite hbuild rfl none finite_fare setup_prepared hvalues⟩

end Crossing

end RobustOpt
