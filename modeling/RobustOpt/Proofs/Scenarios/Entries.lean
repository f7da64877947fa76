import RobustOpt.Proofs.Budget.Finiteness

/-!
# What an entry of a scenario can be

An entry of a scenario is the value of a parameter, or undefined where a set leaves the parameter
open. A box keeps to this for all parameters: where the worst case does not depend on one it takes
the midpoint of its bounds, the only finite bound, or no value. A budget set without data of its own
shifts the midpoint by a share of the half-width, which keeps to it for parameters with two finite
bounds. Of any other parameter, on which no registered constraint may depend, it answers the
midpoint as it is, and this is infinite if one of the bounds is.

## Main definitions

* `Parameter.Accepts`: the entries that a parameter can have in a scenario.
* `Budget.Share`: what a share of a deviation can be, also for undefined coefficients.
* `UncertaintySet.IsPlain`: boxes, and budget sets without data of their own.

## Main statements

* `Polyhedral.accepts_vertexEntry`, `Budget.accepts_shifted`: the entries of worst cases.
* `UncertaintySet.scenarios_accepted`: all entries of all scenarios of a plain set.
-/

namespace RobustOpt

open Bilinear

/-! ## Entries for a parameter -/

namespace Parameter

/-- A parameter can have no value in a scenario, or a number that is neither below its lower nor
above its upper bound. -/
def Accepts (p : Parameter Extended) (x : Extended) : Prop :=
  x = .undefined ∨ ∃ q, x = .finite q ∧ Scalar.lt (.finite q) p.lower = false
    ∧ Scalar.lt p.upper (.finite q) = false

/-- Both bounds are finite. -/
def IsBounded (p : Parameter Extended) : Prop :=
  Scalar.isFinite p.lower = true ∧ Scalar.isFinite p.upper = true

variable {p : Parameter Extended} (hbounds : Scalar.lt p.upper p.lower = false)
include hbounds

/-- The lower bound of a parameter is a value of it. -/
theorem accepts_lower (h : Scalar.isFinite p.lower = true) : p.Accepts p.lower := by
  obtain ⟨l, hl⟩ := Extended.isFinite_iff.mp h
  refine .inr ⟨l, hl, ?_, hl ▸ hbounds⟩
  rw [hl, Extended.lt_finite, decide_eq_false (lt_irrefl l)]

theorem accepts_upper (h : Scalar.isFinite p.upper = true) : p.Accepts p.upper := by
  obtain ⟨t, ht⟩ := Extended.isFinite_iff.mp h
  refine .inr ⟨t, ht, ht ▸ hbounds, ?_⟩
  rw [ht, Extended.lt_finite, decide_eq_false (lt_irrefl t)]

/-- Numbers between finite bounds are values of a parameter. -/
theorem exists_accepts (h : p.IsBounded) : ∃ l t : ℚ, p.lower = .finite l ∧ p.upper = .finite t
    ∧ l ≤ t ∧ ∀ q, l ≤ q → q ≤ t → p.Accepts (.finite q) := by
  obtain ⟨l, hl⟩ := Extended.isFinite_iff.mp h.1
  obtain ⟨t, ht⟩ := Extended.isFinite_iff.mp h.2
  rw [hl, ht, Extended.lt_finite] at hbounds
  refine ⟨l, t, hl, ht, not_lt.mp (of_decide_eq_false hbounds), fun q hlow hup => ?_⟩
  refine .inr ⟨q, rfl, ?_, ?_⟩
  · rw [hl, Extended.lt_finite, decide_eq_false hlow.not_gt]
  · rw [ht, Extended.lt_finite, decide_eq_false hup.not_gt]

end Parameter

/-! ## Boxes -/

namespace Polyhedral

variable {p : Parameter Extended} (hbounds : Scalar.lt p.upper p.lower = false)
include hbounds

theorem accepts_freeValue : p.Accepts (freeValue p.lower p.upper) := by
  unfold freeValue
  split_ifs with hboth hlower hupper
  · obtain ⟨l, t, hl, ht, hle, haccepts⟩ :=
      Parameter.exists_accepts hbounds (Bool.and_eq_true_iff.mp hboth)
    rw [hl, ht, Extended.finite_add, Extended.half_finite]
    exact haccepts _ (by linarith) (by linarith)
  · exact Parameter.accepts_lower hbounds hlower
  · exact Parameter.accepts_upper hbounds hupper
  · exact .inl rfl

/-- The worst case over a box has a value of the parameter, whatever the coefficient. -/
theorem accepts_vertexEntry {i : ℕ} {c x : Extended}
    (h : vertexEntry i c p.lower p.upper = .ok x) : p.Accepts x := by
  unfold vertexEntry at h
  dsimp only at h
  split_ifs at h with hzero hpos hfin hfin
  · exact Except.ok.inj h ▸ accepts_freeValue hbounds
  · exact Except.ok.inj h ▸ Parameter.accepts_upper hbounds hfin
  · exact Except.ok.inj h ▸ Parameter.accepts_lower hbounds hfin

end Polyhedral

/-! ## Budget sets -/

namespace Budget

/-- A share of a deviation: undefined, or at most a whole one of either sign. -/
def Share (x : Extended) : Prop := x = .undefined ∨ ∃ q, x = .finite q ∧ |q| ≤ 1

theorem share_zero : Share 0 := .inr ⟨0, rfl, by simp⟩

/-- What is spent of a budget in one step is at most a whole share, whatever the budget. -/
theorem exists_step {b : Extended} (hb : Scalar.le b 0 = false) :
    ∃ t : ℚ, Scalar.min 1 b = .finite t ∧ |t| ≤ 1 := by
  cases b with
  | finite q =>
    have hq : 0 < q := by simpa [Extended.zero_eq] using hb
    rw [Scalar.min, Extended.one_eq, Extended.lt_finite]
    by_cases h : q < 1
    · exact ⟨q, by simp [h], by rw [abs_of_pos hq]; exact h.le⟩
    · exact ⟨1, by simp [h], by simp⟩
  | negInf => cases hb
  | posInf | undefined => exact ⟨1, rfl, by simp⟩

theorem share_sign {t : ℚ} (ht : |t| ≤ 1) (c : Extended) :
    Share (.finite t * Scalar.sign c) := by
  unfold Scalar.sign
  split_ifs
  · exact .inr ⟨t * 1, rfl, by simpa using ht⟩
  · exact .inr ⟨t * -1, rfl, by simpa using ht⟩
  · exact .inl rfl
  · exact .inr ⟨t * 0, rfl, by simp⟩

/-- Spending a budget leaves shares, one for each parameter. -/
theorem share_spend (g contributions : List Extended) (ranked : List ℕ) (b : Extended)
    {z : List Extended} (hz : ∀ x ∈ z, Share x) :
    (spend g contributions ranked b z).length = z.length
      ∧ ∀ x ∈ spend g contributions ranked b z, Share x := by
  induction ranked generalizing b z with
  | nil => exact ⟨rfl, hz⟩
  | cons i rest ih =>
    unfold spend
    split_ifs with hstop
    · exact ⟨rfl, hz⟩
    · obtain ⟨hb, -⟩ := Bool.or_eq_false_iff.mp (Bool.eq_false_iff.mpr hstop)
      obtain ⟨t, ht, hle⟩ := exists_step hb
      obtain ⟨hlen, hall⟩ := ih (b - Scalar.min 1 b)
        (z := z.set i (Scalar.min 1 b * Scalar.sign (g.getD i 0))) fun x hx => by
          rcases List.mem_or_eq_of_mem_set hx with hx | rfl
          · exact hz x hx
          · rw [ht]
            exact share_sign hle _
      exact ⟨by rw [hlen, List.length_set], hall⟩

theorem share_shares (gamma : Extended) (g deviation : List Extended) :
    (shares gamma g deviation).length = g.length
      ∧ ∀ x ∈ shares gamma g deviation, Share x := by
  have hzero : ∀ x ∈ g.map fun _ => (0 : Extended), Share x :=
    List.forall_mem_map.mpr fun _ _ => share_zero
  obtain ⟨hlen, hall⟩ := share_spend g (List.zipWith contribution g deviation)
    (ranking (List.zipWith contribution g deviation)) gamma hzero
  exact ⟨by rw [shares, hlen, List.length_map], hall⟩

/-- The entries of a worst case, for coefficients of any kind: the nominal value, shifted by a share
of the deviation unless the coefficient is zero. -/
theorem worstCase_entries {b : Budget Extended} {nominal deviation g us : List Extended} {n : ℕ}
    (hdata : b.data = some (nominal, deviation)) (hnom : nominal.length = n)
    (hdev : deviation.length = n) (h : b.worstCase g = .ok us) :
    us.length = n ∧ ∀ i < n, ∃ z, Share z ∧ us.getD i 0 = nominal.getD i 0
      + if Scalar.isZero (g.getD i 0) = true then 0 else deviation.getD i 0 * z := by
  unfold worstCase at h
  rw [hdata] at h
  dsimp only at h
  split_ifs at h with hlen
  have hlen : g.length = n := by
    rw [not_not] at hlen
    exact hlen.trans hdev
  obtain ⟨hshares, hshare⟩ := share_shares b.gamma g deviation
  obtain rfl := Except.ok.inj h
  refine ⟨by simp [hnom, hdev, hlen, hshares], fun i hi => ?_⟩
  have hlt : i < (shares b.gamma g deviation).length := by omega
  refine ⟨(shares b.gamma g deviation)[i], hshare _ (List.getElem_mem hlt), ?_⟩
  rw [List.getD_eq_getElem _ _ (by simp [hnom, hdev, hlen, hshares, hi]),
    List.getD_eq_getElem nominal _ (by omega), List.getD_eq_getElem deviation _ (by omega),
    List.getD_eq_getElem g _ (by omega)]
  simp

/-- A share of the half-width leads from the midpoint to a value between the bounds, or nowhere. -/
theorem accepts_shifted {p : Parameter Extended} (hbounds : Scalar.lt p.upper p.lower = false)
    (h : p.IsBounded) {z : Extended} (hz : Share z) (skip : Prop) [Decidable skip] :
    p.Accepts (Scalar.half (p.lower + p.upper)
      + if skip then 0 else Scalar.half (p.upper - p.lower) * z) := by
  obtain ⟨l, t, hl, ht, hle, haccepts⟩ := Parameter.exists_accepts hbounds h
  rw [hl, ht, Extended.finite_add, Extended.half_finite, Extended.finite_sub, Extended.half_finite]
  split_ifs
  · rw [Extended.add_zero]
    exact haccepts _ (by linarith) (by linarith)
  · obtain rfl | ⟨q, rfl, hq⟩ := hz
    · exact .inl rfl
    · obtain ⟨hlow, hup⟩ := abs_le.mp hq
      have hwidth : 0 ≤ (t - l) / 2 := by linarith
      have hdown := mul_le_mul_of_nonneg_left hlow hwidth
      have hover := mul_le_mul_of_nonneg_left hup hwidth
      rw [Extended.finite_mul, Extended.finite_add]
      exact haccepts _ (by linarith) (by linarith)

end Budget

/-! ## Scenarios of a set -/

/-- The coefficient of a parameter without a stored entry is zero at any decision values. -/
theorem Bilinear.sensitivity_of_row_eq_nil {q : SparseMatrix Extended} {n i : ℕ}
    (hq : q.height = n + 1) (hi : i < n) (hrow : q.rows.getD i [] = []) {s : Extended}
    (hs : Scalar.isFinite s = true) (point : List Extended) :
    (sensitivity q s point).1.getD i 0 = 0 := by
  obtain ⟨c, rfl⟩ := Extended.isFinite_iff.mp hs
  have hlt : i < q.rows.length := by
    have : q.rows.length = n + 1 := hq
    omega
  have hlt' : i < ((q.mulVec point).map (Extended.finite c * ·)).dropLast.length := by
    have : q.rows.length = n + 1 := hq
    simp [SparseMatrix.mulVec]
    omega
  rw [List.getD_eq_getElem _ _ hlt] at hrow
  rw [sensitivity, List.getD_eq_getElem _ _ hlt']
  simp [SparseMatrix.mulVec, hrow, Extended.zero_eq]

theorem Bilinear.length_sensitivity (q : SparseMatrix Extended) (s : Extended)
    (point : List Extended) : (sensitivity q s point).1.length = q.height - 1 := by
  simp [sensitivity, SparseMatrix.mulVec, SparseMatrix.height]

/-- The matrix of an expression has a row for each parameter and one more. -/
theorem Mixed.height_coefficientMatrix {e : Mixed Extended} {n m : ℕ} {q : SparseMatrix Extended}
    (h : e.coefficientMatrix n m = .ok q) : q.height = n + 1 := by
  obtain ⟨entries, -, h⟩ := bind_eq_ok.mp h
  split_ifs at h
  obtain rfl := pure_eq_ok.mp h
  exact SparseMatrix.height_ofEntries _ _ _

namespace CuttingPlane

variable {plane : CuttingPlane Extended} {model : Model Extended} {g : Geometry Extended}

theorem mem_of_foldl_keep {l : List (Extended × Scenario Extended)}
    {start : Option (Extended × Scenario Extended)} {k : Extended × Scenario Extended}
    (h : l.foldl keep start = some k) : start = some k ∨ k ∈ l := by
  induction l generalizing start with
  | nil => exact .inl h
  | cons p l ih =>
    rcases ih h with hstep | hmem
    · unfold keep at hstep
      split at hstep
      · exact .inr (by simp [Option.some.inj hstep])
      · split_ifs at hstep
        · exact .inr (by simp [Option.some.inj hstep])
        · exact .inl hstep
    · exact .inr (by simp [hmem])

/-- A scenario is the worst case of a side of its constraint. -/
theorem exists_of_scenario {point : List Extended} {i : ℤ} {sc : Scenario Extended}
    (h : plane.scenario g model point i = .ok sc) : ∃ q c, plane.form? i = .ok q
      ∧ model.constraint? i = .ok c ∧ ∃ side ∈ c.sides,
        g.worstCase (sensitivity q side.1 point).1 = .ok sc := by
  rw [scenario_eq] at h
  obtain ⟨q, hq, h⟩ := bind_eq_ok.mp h
  obtain ⟨c, hc, h⟩ := bind_eq_ok.mp h
  obtain ⟨found, hfound, h⟩ := bind_eq_ok.mp h
  refine ⟨q, c, hq, hc, ?_⟩
  cases hfold : found.foldl keep none with
  | none =>
    rw [hfold] at h
    cases h
  | some b =>
    rw [hfold] at h
    obtain rfl := pure_eq_ok.mp h
    have hb : b ∈ found := (mem_of_foldl_keep hfold).resolve_left nofun
    obtain ⟨side, hside, hslack⟩ := exists_of_mem_result hfound hb
    obtain ⟨⟨u, lhs⟩, hworst, hslack⟩ := bind_eq_ok.mp hslack
    obtain rfl := pure_eq_ok.mp hslack
    exact ⟨side, hside, worstCase_of_sideWorstCase hworst⟩

end CuttingPlane

namespace UncertaintySet

/-- Boxes, and budget sets that take nominal values and deviations from the bounds. -/
def IsPlain : UncertaintySet Extended → Prop
  | polyhedral _ d => d.isBox = true
  | budget _ b => b.givenNominal = none ∧ b.givenDeviation = none
  | bare _ | scripted _ _ => False

/-- The parameters that a budget set leaves as they are without two finite bounds: no registered
constraint depends on them. -/
def Neglects (s : UncertaintySet Extended) (k : ℕ) : Prop :=
  match s with
  | budget plane _ => k ∉ usedParameters (plane.forms.map Prod.snd)
  | _ => False

variable {model : Model Extended}

/-- What an entry of a worst case can be, for a parameter of the model at a position. -/
def EntryOf (s : UncertaintySet Extended) (model : Model Extended) (k : ℕ)
    (hk : k < model.parameters.length) (x : Extended) : Prop :=
  model.parameters[k].Accepts x ∨ (s.Neglects k ∧ ¬ model.parameters[k].IsBounded
    ∧ x = Scalar.half (model.parameters[k].lower + model.parameters[k].upper))

theorem entries_of_box (hbounds : ∀ p ∈ model.parameters, Scalar.lt p.upper p.lower = false)
    {d : Polyhedral Extended} {solver : Solver Extended} {g us : List Extended}
    (h : d.worstCase g solver = .ok us) (hbox : d.isBox = true)
    (hset : d.bounds = some model.parameterBounds) (hg : g.length = model.parameters.length) :
    us.length = model.parameters.length
      ∧ ∀ k (hk : k < model.parameters.length), model.parameters[k].Accepts (us.getD k 0) := by
  rw [Polyhedral.worstCase, if_pos hbox, hset] at h
  obtain ⟨hlen, hentry⟩ := Polyhedral.boxVertex_entries h
  refine ⟨hlen.trans hg, fun k hk => ?_⟩
  have hk' := hentry k (hg ▸ hk)
  rw [List.getD_eq_getElem (model.parameters.map Parameter.lower) _ (by simpa using hk),
    List.getD_eq_getElem (model.parameters.map Parameter.upper) _ (by simpa using hk),
    List.getElem_map, List.getElem_map] at hk'
  exact Polyhedral.accepts_vertexEntry (hbounds _ (List.getElem_mem hk)) hk'

theorem entries_of_budget (hbounds : ∀ p ∈ model.parameters, Scalar.lt p.upper p.lower = false)
    {b : Budget Extended} {q : SparseMatrix Extended} {s : Extended} {point us : List Extended}
    (h : b.worstCase (sensitivity q s point).1 = .ok us) (hnominal : b.givenNominal = none)
    (hdeviation : b.givenDeviation = none) {forms : List (SparseMatrix Extended)}
    (hset : b.IsSetUp model forms) (hq : q ∈ forms)
    (hheight : q.height = model.parameters.length + 1) (hs : Scalar.isFinite s = true) :
    us.length = model.parameters.length
      ∧ ∀ k (hk : k < model.parameters.length), model.parameters[k].Accepts (us.getD k 0)
        ∨ (k ∉ usedParameters forms ∧ ¬ model.parameters[k].IsBounded
          ∧ us.getD k 0
            = Scalar.half (model.parameters[k].lower + model.parameters[k].upper)) := by
  have hdata : b.dataFor model = (Budget.midpoints model.parameterBounds.1 model.parameterBounds.2,
      Budget.halfWidths model.parameterBounds.1 model.parameterBounds.2) := by
    simp [Budget.dataFor, hnominal, hdeviation]
  have hstored : b.data = some ((b.dataFor model).1, (b.dataFor model).2) := hset.data
  obtain ⟨hlen, hentry⟩ := Budget.worstCase_entries hstored hset.nominal hset.deviation h
  refine ⟨hlen, fun k hk => ?_⟩
  have hmid : (b.dataFor model).1.getD k 0
      = Scalar.half (model.parameters[k].lower + model.parameters[k].upper) := by
    rw [List.getD_eq_getElem _ _ (hset.nominal.symm ▸ hk)]
    simp [hdata, Budget.midpoints, Model.parameterBounds]
  have hwidth : (b.dataFor model).2.getD k 0
      = Scalar.half (model.parameters[k].upper - model.parameters[k].lower) := by
    rw [List.getD_eq_getElem _ _ (hset.deviation.symm ▸ hk)]
    simp [hdata, Budget.halfWidths, Model.parameterBounds]
  obtain ⟨z, hz, hentry⟩ := hentry k hk
  rw [hentry, hmid, hwidth]
  by_cases hbounded : model.parameters[k].IsBounded
  · exact .inl (Budget.accepts_shifted (hbounds _ (List.getElem_mem hk)) hbounded hz _)
  · -- a midpoint is finite only between finite bounds, so nothing may depend on the parameter
    have hcount : ¬ Budget.Counts (b.dataFor model).1 (b.dataFor model).2 k := by
      rintro ⟨hfin, -⟩
      rw [hmid] at hfin
      exact hbounded (Extended.isFinite_add.mp (Extended.isFinite_mul.mp hfin).1)
    have hunused := hset.notMem_used hcount
    refine .inr ⟨hunused, hbounded, ?_⟩
    have hrow := Budget.row_eq_nil_of_notMem_used hq hheight hk hunused
    have hzero : Scalar.isZero ((sensitivity q s point).1.getD k 0) = true := by
      rw [sensitivity_of_row_eq_nil hheight hk hrow hs]
      rfl
    rw [if_pos hzero, Extended.add_zero]

/-- The scenarios of a box or of a budget set without data of its own, at any values of the decision
variables, have one entry for each parameter. It is undefined or a value of the parameter between
its bounds, with one exception: of a parameter without two finite bounds, on which no registered
constraint depends, a budget set answers the midpoint of the bounds, so that the entry is infinite
if exactly one of them is. The bounds of parameters do not cross, which is checked when they are
made; the budget and the coefficients may be anything. -/
theorem scenarios_accepted {s s' t : UncertaintySet Extended} (hplain : s.IsPlain)
    (hbounds : ∀ p ∈ model.parameters, Scalar.lt p.upper p.lower = false) {report : Bool}
    {prefs : Preferences Extended} {r : Unit}
    (hsetup : (setup model report prefs).Yields s r s') {solver : Solver Extended}
    {values : Valuation Extended} {is : List ℤ} {answers : List (Option (Scenario Extended))}
    (h : (scenarios model values is solver).Yields s' answers t) :
    ∃ ss : List (Scenario Extended), answers = ss.map some ∧ ss.length = is.length
      ∧ ∀ sc ∈ ss, sc.length = model.parameters.length
        ∧ ∀ k (hk : k < model.parameters.length), s'.EntryOf model k hk (sc.getD k 0) := by
  have hgeo : s.IsGeometric := by
    cases s with
    | bare | scripted => cases hplain
    | polyhedral | budget => rfl
  have hset := (yields_setup hgeo).mp hsetup
  obtain ⟨-, plane, -, hplane, hprep, -⟩ := hset.plane_spec
  obtain ⟨⟨ss, hss, rfl⟩, -⟩ := (yields_scenarios hplane).mp h
  refine ⟨ss, rfl, (mapM_eq_ok.mp hss).length_eq.symm, fun sc hsc => ?_⟩
  obtain ⟨i, -, hi⟩ := exists_of_mem_result hss hsc
  obtain ⟨q, c, hq, hc, side, hside, hworst⟩ := CuttingPlane.exists_of_scenario hi
  have hmem := CuttingPlane.mem_forms_of_form? hq
  obtain ⟨k, -, hmatrix⟩ := hprep.of_mem hmem
  have hheight := Mixed.height_coefficientMatrix hmatrix
  cases s with
  | bare | scripted => cases hplain
  | polyhedral p d =>
    obtain ⟨forms, poly, -, -, rfl⟩ := hset
    obtain rfl := Option.some.inj hplane
    have hg : (sensitivity q side.1 (model.point values)).1.length = model.parameters.length := by
      rw [length_sensitivity, hheight, Nat.add_sub_cancel]
    have hworst : Polyhedral.worstCase _ _ solver = .ok sc := hworst
    obtain ⟨hlen, hentry⟩ := entries_of_box hbounds hworst hplain rfl hg
    exact ⟨hlen, fun k hk => .inl (hentry k hk)⟩
  | budget p b =>
    obtain ⟨forms, hforms, -, -, hfree, rfl⟩ := hset
    obtain rfl := Option.some.inj hplane
    obtain ⟨hnominal, hdeviation⟩ := hplain
    have hsetUp : ({ b with data := some (b.dataFor model) } : Budget Extended).IsSetUp model
        (forms.map Prod.snd) :=
      ⟨rfl, by simp [Budget.dataFor, hnominal, Budget.midpoints, Model.parameterBounds],
        by simp [Budget.dataFor, hdeviation, Budget.halfWidths, Model.parameterBounds], hfree⟩
    have hworst : Budget.worstCase { b with data := some (b.dataFor model) }
        (sensitivity q side.1 (model.point values)).1 = .ok sc := hworst
    exact entries_of_budget hbounds hworst hnominal hdeviation hsetUp (List.mem_map_of_mem hmem)
      hheight (Bounded.sides_spec hside).1.isFinite

end UncertaintySet

/-! ## The entry of a delay without an upper bound -/

namespace Crossing

theorem worstCase_eq : (prepared.geometryWith (.ofTable [])).worstCase [.finite 5, .finite 0]
    = .ok [.finite 3, .posInf] := by
  have hcontribution : List.zipWith Budget.contribution [(.finite 5 : Extended), .finite 0]
      [.finite 1, .posInf] = [.finite 5, .finite 0] := by decide +kernel
  have hranking : Budget.ranking [(.finite 5 : Extended), .finite 0] = [0, 1] := by
    rw [Budget.ranking, List.mergeSort_of_pairwise (by decide +kernel)]
    rfl
  have hshares : Budget.shares (.finite 1 : Extended) [.finite 5, .finite 0] [.finite 1, .posInf]
      = [.finite 1, .finite 0] := by
    rw [Budget.shares, hcontribution, hranking]
    decide +kernel
  have hdata : budget.dataFor model = ([.finite 2, .posInf], [.finite 1, .posInf]) := by
    decide +kernel
  have hworst : Budget.worstCase { budget with data := some (budget.dataFor model) }
      [.finite 5, .finite 0] = .ok [.finite 3, .posInf] := by
    rw [Budget.worstCase, hdata]
    dsimp only [budget]
    rw [hshares, if_neg (by decide)]
    exact congrArg Except.ok (by decide +kernel)
  exact hworst

/-- The worst case of five trips has the highest toll and an infinite delay, on which the fare does
not depend. -/
theorem scenarios_prepared :
    (UncertaintySet.scenarios model values [0] (.ofTable [])).Yields prepared
      [some [.finite 3, .posInf]] prepared := by
  have hsides : fare.sides = [(1, .finite 10)] := by decide +kernel
  have hpoint : (sensitivity form 1 (model.point values)).1 = [.finite 5, .finite 0] := by
    decide +kernel
  have hslack : CuttingPlane.sideSlack (prepared.geometryWith (.ofTable [])) form (1, .finite 10)
      (model.point values) = .ok (.finite (-5), [.finite 3, .posInf]) := by
    refine bind_eq_ok.mpr ⟨([.finite 3, .posInf], .finite 15), ?_,
      congrArg Except.ok (by decide +kernel)⟩
    rw [CuttingPlane.sideWorstCase, if_neg (by decide)]
    exact bind_eq_ok.mpr ⟨[.finite 3, .posInf], (congrArg _ hpoint).trans worstCase_eq,
      congrArg Except.ok (by decide +kernel)⟩
  have hscenario : CuttingPlane.scenario { plane with forms := [(0, form)] }
      (prepared.geometryWith (.ofTable [])) model (model.point values) 0
      = .ok [.finite 3, .posInf] := by
    rw [CuttingPlane.scenario_eq]
    refine bind_eq_ok.mpr ⟨form, rfl, bind_eq_ok.mpr ⟨fare, rfl, bind_eq_ok.mpr
      ⟨[(.finite (-5), [.finite 3, .posInf])], ?_, rfl⟩⟩⟩
    rw [hsides]
    exact mapM_eq_ok.mpr (.cons hslack .nil)
  exact (UncertaintySet.yields_scenarios rfl).mpr
    ⟨⟨_, mapM_eq_ok.mpr (.cons hscenario .nil), rfl⟩, rfl⟩

theorem not_accepts_posInf : ¬ delay.Accepts .posInf := by
  rintro (h | ⟨q, h, -⟩) <;> cases h

/-- Not all entries are undefined or values between the bounds. -/
theorem not_scenarios_accepted : ¬ ∀ {s s' t : UncertaintySet Extended}, s.IsPlain →
    (UncertaintySet.setup model false []).Yields s ⟨⟩ s' →
    ∀ {answers}, (UncertaintySet.scenarios model values [0] (.ofTable [])).Yields s' answers t →
    ∀ sc, some sc ∈ answers → ∀ k (hk : k < model.parameters.length),
      model.parameters[k].Accepts (sc.getD k 0) := by
  intro h
  exact not_accepts_posInf (h (s := .budget plane budget) ⟨rfl, rfl⟩ setup_prepared
    scenarios_prepared _ (List.mem_singleton.mpr rfl) 1 (by decide))

/-- The delay of the fare's only scenario is the midpoint of its bounds, which is infinite. -/
theorem scenarios_accepted_fare : ∃ sc, sc.length = 2
    ∧ (UncertaintySet.scenarios model values [0] (.ofTable [])).Yields prepared [some sc] prepared
    ∧ ∀ k (hk : k < model.parameters.length), prepared.EntryOf model k hk (sc.getD k 0) := by
  obtain ⟨ss, hss, -, hentries⟩ := UncertaintySet.scenarios_accepted
    (s := .budget plane budget) ⟨rfl, rfl⟩ (by decide +kernel) setup_prepared scenarios_prepared
  cases ss with
  | nil => cases hss
  | cons sc ss =>
    obtain ⟨hlen, hentry⟩ := hentries sc (by simp)
    obtain ⟨heq, -⟩ := List.cons.inj hss
    exact ⟨sc, hlen, heq ▸ scenarios_prepared, hentry⟩

end Crossing

end RobustOpt
