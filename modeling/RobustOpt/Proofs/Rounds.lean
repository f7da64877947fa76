import RobustOpt.Proofs.Session

/-!
# Solves and rounds of cuts

What one solve of the master and one round of cuts do to a session whose sets are ready: a solve
gives values to the columns of the master, and a round looks at every side of every remaining
constraint and answers the cuts of those that are violated, without changing the session.

## Main definitions

* `Model.IsSide`: a side of an uncertain constraint, with the matrix of the constraint.
* `Model.CutsOff`: a cut is a side at fixed values of the parameters.
* `Session.WorstCase`: what the responsible set answers as the worst case of a side.
* `Session.SharpCuts`: the cuts of a round have no negligible coefficients.

## Main statements

* `Geometry.Maximizes.exists_worst`: a side is nowhere greater than in its worst case.
* `Session.spec_of_gatherCuts`: the cuts of a round.
-/

namespace RobustOpt

open Bilinear

/-- A side of the uncertain constraint at an index, with the matrix of the constraint. -/
def Model.IsSide (model : Model Extended) (i : ℕ) (q : SparseMatrix Extended)
    (side : Extended × Extended) : Prop :=
  ∃ c, model.constraint? i = .ok c
    ∧ c.expr.coefficientMatrix model.parameters.length model.decisions.length = .ok q
    ∧ side ∈ c.sides

/-- The value of a side of the model at parameter values `u` and a point. -/
def Model.sideAt (model : Model Extended) (q : SparseMatrix Extended) (side : Extended × Extended)
    (u : ℕ → ℚ) (y : Point) : ℚ :=
  valueAt q model.parameters.length model.decisions.length side.1.rat u
    (Decision.valuesAt model.decisions y)

/-- A worst case is one the parameters can take, and the side is nowhere greater. -/
theorem Geometry.Maximizes.exists_worst {g : Geometry Extended} {model : Model Extended}
    {A : ℕ → Prop} {U : (ℕ → ℚ) → Prop} (hg : g.Maximizes model.parameters.length A U)
    {q : SparseMatrix Extended} (hA : OnlyUses q model.parameters.length A)
    {side : Extended × Extended} {y : Point} {u : List Extended}
    (hu : g.worstCase (scalars model.parameters.length (slope q model.decisions.length
      side.1.rat (Decision.valuesAt model.decisions y))) = .ok u) :
    ∃ v, u.map Scalar.toFinite = scalars model.parameters.length v ∧ U v
      ∧ ∀ w, U w → model.sideAt q side w y ≤ model.sideAt q side v y := by
  obtain ⟨v, huv, hv, hmax⟩ := hg _ u (fun i hi hAi => hA.slope_eq_zero hi hAi _ _ _) hu
  refine ⟨v, huv, hv, fun w hw => ?_⟩
  simp only [Model.sideAt, valueAt_eq_slope]
  exact add_le_add (hmax w hw) le_rfl

/-- The worst case computed for a side at a point, and values of the parameters it stands for. -/
theorem Geometry.Maximizes.exists_worst_at {g : Geometry Extended} {model : Model Extended}
    {A : ℕ → Prop} {U : (ℕ → ℚ) → Prop} (hg : g.Maximizes model.parameters.length A U)
    {q : SparseMatrix Extended} (hA : OnlyUses q model.parameters.length A)
    (hq : Shaped q model.parameters.length model.decisions.length) {side : Extended × Extended}
    (hsign : Scalar.isFinite side.1 = true) {values : Valuation Extended} (hfin : values.Finite)
    (hworst : ∃ u, g.worstCase (sensitivity q side.1 (model.point values)).1 = .ok u) :
    ∃ u v, g.worstCase (scalars model.parameters.length (slope q model.decisions.length
        side.1.rat (Decision.valuesAt model.decisions values.point))) = .ok u
      ∧ u.map Scalar.toFinite = scalars model.parameters.length v ∧ U v
      ∧ ∀ w, U w → model.sideAt q side w values.point ≤ model.sideAt q side v values.point := by
  obtain ⟨u, hu⟩ := hworst
  rw [Model.point_eq model hfin, sensitivity_spec hq hsign] at hu
  obtain ⟨v, huv, hv, hmax⟩ := hg.exists_worst hA hu
  exact ⟨u, v, hu, huv, hv, hmax⟩

/-- A constraint on the decision variables that says that a side holds at parameter values `v`. -/
def Model.CutsOff (model : Model Extended) (k : LinearConstraint Extended)
    (q : SparseMatrix Extended) (side : Extended × Extended) (v : ℕ → ℚ) : Prop :=
  k.Within (Decision.Owns model.decisions)
    ∧ ∀ y : Point, k.Holds y.exact ↔ model.sideAt q side v y ≤ side.2.rat

/-- The sides of a registered constraint, and its form. -/
theorem CuttingPlane.Prepared.isSide_iff {plane : CuttingPlane Extended} {model : Model Extended}
    (h : plane.Prepared model) {i : ℕ} (hi : (i : ℤ) ∈ plane.indices) :
    ∃ q c, plane.form? i = .ok q ∧ ((i : ℤ), q) ∈ plane.forms ∧ model.constraint? i = .ok c
      ∧ ∀ q' side, model.IsSide i q' side ↔ q' = q ∧ side ∈ c.sides := by
  obtain ⟨q, c, hq, hmem, hc, hmatrix⟩ := h.form?_eq hi
  refine ⟨q, c, hq, hmem, hc, fun q' side => ⟨?_, ?_⟩⟩
  · rintro ⟨c', hc', hmatrix', hside⟩
    obtain rfl := Except.ok.inj (hc.symm.trans hc')
    exact ⟨Except.ok.inj (hmatrix'.symm.trans hmatrix), hside⟩
  · rintro ⟨rfl, hside⟩
    exact ⟨c, hc, hmatrix, hside⟩

/-- The matrix of a registered constraint is among the forms. -/
theorem CuttingPlane.Prepared.mem_forms {plane : CuttingPlane Extended} {model : Model Extended}
    (h : plane.Prepared model) {i : ℕ} (hi : (i : ℤ) ∈ plane.indices) {q : SparseMatrix Extended}
    {side : Extended × Extended} (hside : model.IsSide i q side) : ((i : ℤ), q) ∈ plane.forms := by
  obtain ⟨q', c, -, hform, -, hiff⟩ := h.isSide_iff hi
  obtain ⟨rfl, -⟩ := (hiff q side).mp hside
  exact hform

/-- Every side of registered constraints is answered, and every cut is the answer for a side. -/
theorem CuttingPlane.Prepared.cuts_answer {plane : CuttingPlane Extended} {model : Model Extended}
    (h : plane.Prepared model) {indices : List ℕ} (hi : ∀ i ∈ indices, (i : ℤ) ∈ plane.indices)
    {g : Geometry Extended} {point : List Extended} {cs : List (LinearConstraint Extended)}
    (hcs : plane.cuts g model point (indices.map Int.ofNat) = .ok cs) :
    (∀ i ∈ indices, ∀ q side, model.IsSide i q side → ((i : ℤ), q) ∈ plane.forms
      ∧ ∃ r, plane.sideCut g model q side.1 side.2 point = .ok r ∧ ∀ k, r = some k → k ∈ cs)
    ∧ ∀ k ∈ cs, ∃ i ∈ indices, ∃ q side, model.IsSide i q side ∧ ((i : ℤ), q) ∈ plane.forms
      ∧ plane.sideCut g model q side.1 side.2 point = .ok (some k) := by
  obtain ⟨hsides, hcuts⟩ := CuttingPlane.cuts_spec hcs
  constructor
  · intro i hmem q side hside
    obtain ⟨q₀, c₀, hq₀, hform, hc₀, hiff⟩ := h.isSide_iff (hi i hmem)
    obtain ⟨rfl, hmemside⟩ := (hiff q side).mp hside
    obtain ⟨q', c', hq', hc', hanswers⟩ := hsides (i : ℤ) (List.mem_map_of_mem hmem)
    obtain rfl := Except.ok.inj (hq₀.symm.trans hq')
    obtain rfl := Except.ok.inj (hc₀.symm.trans hc')
    exact ⟨hform, hanswers side hmemside⟩
  · intro k hk
    obtain ⟨j, hj, q, c, hq, hc, side, hside, hcut⟩ := hcuts k hk
    obtain ⟨i, hmem, rfl⟩ := List.mem_map.mp hj
    obtain ⟨q₀, c₀, hq₀, hform, hc₀, hiff⟩ := h.isSide_iff (hi i hmem)
    obtain rfl := Except.ok.inj (hq₀.symm.trans hq)
    obtain rfl := Except.ok.inj (hc₀.symm.trans hc)
    exact ⟨i, hmem, q₀, side, (hiff q₀ side).mpr ⟨rfl, hside⟩, hform, hcut⟩

namespace Session

variable {w : Workspace Extended} {model : Model Extended} {prefs : Preferences Extended}
  {report : Bool} {env : Environment Extended} {s t : Session Extended}
  {remaining : List (ℕ × List ℕ)}

/-! ## Calls -/

theorem yields_solve {status : Status} :
    ((w.participants model report prefs env).solve).Yields s status t ↔ ∃ m v,
      s.currentMaster.solve s.space.values env.master = .ok (m, v)
      ∧ status = m.status?.getD .optimal
      ∧ { s with space := { s.space with values := v }, master := some m } = t := by
  show (solveMaster env.master).Yields s status t ↔ _
  unfold solveMaster
  simp only [Action.yields_get_bind, Action.yields_lift_bind, Action.yields_set_bind,
    Action.yields_pure]
  constructor
  · rintro ⟨⟨m, v⟩, hsolve, rfl, rfl⟩
    exact ⟨m, v, hsolve, rfl, rfl⟩
  · rintro ⟨m, v, hsolve, rfl, rfl⟩
    exact ⟨(m, v), hsolve, rfl, rfl⟩

theorem yields_addCuts {cs : List (LinearConstraint Extended)} {r : Unit} :
    ((w.participants model report prefs env).addCuts cs).Yields s r t ↔
      { s with master := some (s.currentMaster.addConstraints cs) } = t :=
  Action.yields_modify

theorem yields_cut {id : ℕ} {is : List ℕ} {cs : List (LinearConstraint Extended)} :
    ((w.participants model report prefs env).cut id is).Yields s cs t ↔ ∃ u,
      (UncertaintySet.cuts model s.space.values (is.map Int.ofNat) env.adversary).Yields
        (s.space.uncertaintySet id) cs u
      ∧ { s with space := s.space.withSet id u } = t := by
  unfold Workspace.participants
  dsimp only
  rw [Action.yields_get_bind, yields_onSet]

/-- The cuts of a set of one of the two kinds, which leave the session as it is. -/
theorem yields_cut_of_plane {id : ℕ} {plane : CuttingPlane Extended}
    (h : (s.space.uncertaintySet id).plane? = some plane) {is : List ℕ}
    {cs : List (LinearConstraint Extended)} :
    ((w.participants model report prefs env).cut id is).Yields s cs t ↔
      plane.cuts ((s.space.uncertaintySet id).geometryWith env.adversary) model
          (model.point s.space.values) (is.map Int.ofNat) = .ok cs ∧ t = s := by
  simp only [yields_cut, UncertaintySet.yields_cuts h]
  constructor
  · rintro ⟨u, ⟨hcuts, rfl⟩, rfl⟩
    exact ⟨hcuts, by simp⟩
  · rintro ⟨hcuts, rfl⟩
    exact ⟨_, ⟨hcuts, rfl⟩, by simp⟩

/-- Scenarios concern the sets only. -/
theorem frame_of_yields_collectScenarios {found : List (ℕ × Option (Scenario Extended))}
    (h : ((w.participants model report prefs env).collectScenarios remaining).Yields s found t) :
    t.space.values = s.space.values ∧ t.master = s.master := by
  obtain ⟨parts, _, hparts, h⟩ := Action.yields_bind.mp h
  obtain ⟨-, rfl⟩ := Action.yields_pure.mp h
  refine Action.Yields.mapM (fun _ _ t => t.space.values = s.space.values ∧ t.master = s.master)
    hparts ⟨rfl, rfl⟩ ?_
  rintro done out ⟨id, is⟩ t q u - ⟨hvalues, hmaster⟩ hy
  dsimp only at hy
  split_ifs at hy
  · obtain ⟨-, rfl⟩ := Action.yields_pure.mp hy
    exact ⟨hvalues, hmaster⟩
  · obtain ⟨_, _, hreq, hy⟩ := Action.yields_bind.mp hy
    obtain ⟨-, rfl⟩ := Participants.yields_require.mp hreq
    obtain ⟨scenarios, v, hcall, hy⟩ := Action.yields_bind.mp hy
    obtain ⟨x, -, rfl⟩ := yields_onSet.mp (Action.yields_get_bind.mp hcall)
    split_ifs at hy
    · obtain ⟨_, _, hthrow, _⟩ := Action.yields_bind.mp hy
      exact absurd hthrow Action.yields_throw
    · obtain ⟨-, rfl⟩ := Action.yields_pure.mp hy
      exact ⟨hvalues, hmaster⟩

/-! ## Solves -/

/-- A solve changes the outcome of the master and the values only. -/
theorem frame_of_yields_solve {status : Status}
    (h : ((w.participants model report prefs env).solve).Yields s status t) :
    t.currentMaster.objective = s.currentMaster.objective
      ∧ t.currentMaster.constraints = s.currentMaster.constraints
      ∧ t.space.supply = s.space.supply
      ∧ (∀ id, t.space.uncertaintySet id = s.space.uncertaintySet id)
      ∧ t.currentMaster.status? = some status := by
  obtain ⟨m, v, hsolve, rfl, rfl⟩ := yields_solve.mp h
  obtain ⟨hobj, hcons, -⟩ := Master.solve_frame hsolve
  refine ⟨hobj, hcons, rfl, fun _ => rfl, ?_⟩
  show m.status? = some (m.status?.getD .optimal)
  obtain h | h | h := Master.status_of_solve hsolve <;> rw [h] <;> rfl

theorem status_of_yields_solve {status : Status}
    (h : ((w.participants model report prefs env).solve).Yields s status t) :
    status = .optimal ∨ status = .infeasible ∨ status = .unbounded := by
  obtain ⟨m, v, hsolve, rfl, rfl⟩ := yields_solve.mp h
  obtain h | h | h := Master.status_of_solve hsolve <;> rw [h] <;> simp

theorem eq_optimal_of_confirmed {status : Status}
    (h : ((w.participants model report prefs env).solve).Yields s status t)
    (hstatus : status.isConfirmed = true) : status = .optimal := by
  obtain rfl | rfl | rfl := status_of_yields_solve h
  · rfl
  · cases hstatus
  · cases hstatus

/-- After an optimum the values satisfy the master, and columns outside of it keep theirs. -/
theorem values_of_yields_solve (hs : env.master.Feasible) {status : Status}
    (h : ((w.participants model report prefs env).solve).Yields s status t)
    (hstatus : status.isConfirmed = true) :
    s.currentMaster.Satisfied t.space.values.point
      ∧ (s.space.values.Finite → t.space.values.Finite)
      ∧ ∀ d : Column, d.Admits (s.space.values.point d) → d.Admits (t.space.values.point d) := by
  obtain rfl := eq_optimal_of_confirmed h hstatus
  have hfinal := (frame_of_yields_solve h).2.2.2.2
  obtain ⟨m, v, hsolve, -, rfl⟩ := yields_solve.mp h
  obtain ⟨-, -, hkeep⟩ := Master.solve_frame hsolve
  obtain ⟨hsat, hvalue⟩ := Master.solve_feasible hs hsolve hfinal
  refine ⟨hsat, fun hfin c x hx => ?_, fun d hd => ?_⟩
  · by_cases hc : c ∈ s.currentMaster.columns
    · obtain ⟨q, hq⟩ := hvalue c hc
      obtain rfl := Option.some.inj (hx.symm.trans hq)
      rfl
    · exact hfin c x ((hkeep c hc).symm.trans hx)
  · by_cases hc : d ∈ s.currentMaster.columns
    · exact hsat.2 d hc
    · have : v.point d = s.space.values.point d := by
        simp [Valuation.point, hkeep d hc]
      show d.Admits (v.point d)
      rwa [this]

/-! ## Rounds -/

/-- What the responsible set answers as the worst case of a side at the present values. -/
def WorstCase (model : Model Extended) (env : Environment Extended) (s : Session Extended) (i : ℕ)
    (q : SparseMatrix Extended) (side : Extended × Extended) (u : List Extended) : Prop :=
  ((s.space.uncertaintySet (model.setFor i)).geometryWith env.adversary).worstCase
    (scalars model.parameters.length (slope q model.decisions.length side.1.rat
      (Decision.valuesAt model.decisions s.space.values.point))) = .ok u

/-- The cuts made at the present values have no negligible coefficients. -/
def SharpCuts (model : Model Extended) (env : Environment Extended)
    (remaining : List (ℕ × List ℕ)) (s : Session Extended) : Prop :=
  ∀ p ∈ remaining, ∀ i ∈ p.2, ∀ q side, model.IsSide i q side →
    ∀ plane, (s.space.uncertaintySet p.1).plane? = some plane →
      plane.SharpCut ((s.space.uncertaintySet p.1).geometryWith env.adversary) q side.1 side.2
        (model.point s.space.values)

/-- The remaining constraints belong to sets of the two kinds. -/
def Manageable (w : Workspace Extended) (model : Model Extended) (remaining : List (ℕ × List ℕ)) :
    Prop :=
  ∀ p ∈ remaining, ∀ i ∈ p.2, i ∈ model.owned p.1 ∧ (w.uncertaintySet p.1).IsGeometric
    ∧ (w.uncertaintySet p.1).Checked

/-- The numeric tolerance of a solve. -/
def Tolerance (prefs : Preferences Extended) (τ : Extended) : Prop :=
  (prefs.get Preferences.cutTol (.real Scalar.cutTol)).numeric? = some τ

/-- A cut is made exactly for the sides that their worst case violates. -/
theorem sideCut_of_ready {plane : CuttingPlane Extended} {id : ℕ} {τ : Extended}
    (hready : (s.space.uncertaintySet id).Ready model prefs plane) (hτ : Tolerance prefs τ)
    (hfin : s.space.values.Finite) {i : ℕ} (howner : model.setFor i = id)
    {q : SparseMatrix Extended} {side : Extended × Extended} (hside : model.IsSide i q side)
    (hq : ((i : ℤ), q) ∈ plane.forms)
    (hsharp : plane.SharpCut ((s.space.uncertaintySet id).geometryWith env.adversary) q side.1
      side.2 (model.point s.space.values))
    {r : Option (LinearConstraint Extended)}
    (h : plane.sideCut ((s.space.uncertaintySet id).geometryWith env.adversary) model q side.1
      side.2 (model.point s.space.values) = .ok r) :
    ∃ u, WorstCase model env s i q side u ∧ ∀ v,
      u.map Scalar.toFinite = scalars model.parameters.length v →
      (Scalar.lt τ (.finite (model.sideAt q side v s.space.values.point - side.2.rat)) = false
        ∧ r = none)
      ∨ (Scalar.lt τ (.finite (model.sideAt q side v s.space.values.point - side.2.rat)) = true
        ∧ ∃ k, r = some k ∧ model.CutsOff k q side v) := by
  subst howner
  obtain ⟨sign, rhs⟩ := side
  obtain ⟨c, -, -, hmem⟩ := hside
  obtain ⟨hsign, hrhs⟩ := Bounded.sides_spec hmem
  obtain ⟨b, rfl⟩ := Extended.isFinite_iff.mp hrhs
  rw [Model.point_eq model hfin] at hsharp h
  have htol : plane.cutTol.numeric? = some τ := by
    rw [hready.cutTol]
    exact hτ
  exact CuttingPlane.sideCut_spec htol (hready.fits _ hq).shaped hsign.isFinite hsharp h

/-- The sets of remaining constraints are ready. -/
theorem Ready.exists_plane (hready : Ready w model prefs s) (hrem : Manageable w model remaining)
    {p : ℕ × List ℕ} (hp : p ∈ remaining) (hne : p.2 ≠ []) : ∃ plane,
    (s.space.uncertaintySet p.1).Ready model prefs plane
      ∧ ∀ i ∈ p.2, model.setFor i = p.1 ∧ (i : ℤ) ∈ plane.indices := by
  obtain ⟨j, hj⟩ := List.exists_mem_of_ne_nil _ hne
  have hall : ∀ i ∈ p.2, model.setFor i = p.1 ∧ ∃ plane,
      (s.space.uncertaintySet p.1).Ready model prefs plane ∧ (i : ℤ) ∈ plane.indices := by
    intro i hi
    obtain ⟨hown, hgeo, hwf⟩ := hrem p hp i hi
    obtain ⟨hlt, heq⟩ := Model.mem_owned.mp hown
    rw [← heq] at hgeo hwf
    have := (hready i hlt hgeo hwf).2
    rw [heq] at this
    exact ⟨heq, this⟩
  obtain ⟨-, plane, hplane, -⟩ := hall j hj
  refine ⟨plane, hplane, fun i hi => ?_⟩
  obtain ⟨heq, plane', hplane', hmem⟩ := hall i hi
  exact ⟨heq, Option.some.inj (hplane'.plane_eq.symm.trans hplane.plane_eq) ▸ hmem⟩

/-- Making cuts leaves the session as it is. -/
theorem Ready.eq_of_yields_cut (hready : Ready w model prefs s)
    (hrem : Manageable w model remaining) {p : ℕ × List ℕ} (hp : p ∈ remaining) (hne : p.2 ≠ [])
    {cs : List (LinearConstraint Extended)}
    (hy : ((w.participants model report prefs env).cut p.1 p.2).Yields s cs t) : t = s := by
  obtain ⟨plane, hplane, -⟩ := hready.exists_plane hrem hp hne
  exact ((yields_cut_of_plane hplane.plane_eq).mp hy).2

/-- What a round does: it solves the master, finds an optimum, and adds cuts made at that
optimum. -/
theorem Ready.cases_round (h : Ready w model prefs s) (hrem : Manageable w model remaining)
    (hround : (w.participants model report prefs env).Round remaining s t) :
    ∃ s' cuts, ((w.participants model report prefs env).solve).Yields s .optimal s'
      ∧ Ready w model prefs s'
      ∧ ((w.participants model report prefs env).gatherCuts remaining).Yields s' cuts s'
      ∧ cuts ≠ [] ∧ t = { s' with master := some (s'.currentMaster.addConstraints cuts) } := by
  obtain ⟨status, s', cuts, s'', hsolve, hstatus, hgather, hne, hadd⟩ := hround
  obtain rfl := eq_optimal_of_confirmed hsolve hstatus
  have h' : Ready w model prefs s' :=
    h.of_sameSets fun id _ => (frame_of_yields_solve hsolve).2.2.2.1 id
  obtain ⟨rfl, -⟩ := Participants.yields_gatherCuts
    (fun p hp hne cs t hy => h'.eq_of_yields_cut hrem hp hne hy) hgather
  exact ⟨_, cuts, hsolve, h', hgather, hne, (yields_addCuts.mp hadd).symm⟩

/-- Rounds leave the sets ready. -/
theorem Ready.round (h : Ready w model prefs s) (hrem : Manageable w model remaining)
    (hround : (w.participants model report prefs env).Round remaining s t) :
    Ready w model prefs t := by
  obtain ⟨s', cuts, -, h', -, -, rfl⟩ := h.cases_round hrem hround
  exact h'.of_sameSets fun id _ => rfl

theorem Ready.reaches (h : Ready w model prefs s) (hrem : Manageable w model remaining) {k : ℕ}
    (hreach : (w.participants model report prefs env).Reaches remaining s k t) :
    Ready w model prefs t := by
  induction hreach with
  | refl => exact h
  | round _ hround ih => exact ih.round hrem hround

/-- The cuts of a round leave the session as it is. Each side of each remaining constraint holds
up to the tolerance in its worst case, or a cut says that it has to hold there; and every cut is
made for a violated side. -/
theorem spec_of_gatherCuts {τ : Extended} (hready : Ready w model prefs s)
    (hrem : Manageable w model remaining) (hτ : Tolerance prefs τ) (hfin : s.space.values.Finite)
    (hsharp : SharpCuts model env remaining s) {cuts : List (LinearConstraint Extended)}
    (h : ((w.participants model report prefs env).gatherCuts remaining).Yields s cuts t) : t = s
    ∧ (∀ p ∈ remaining, ∀ i ∈ p.2, ∀ q side, model.IsSide i q side →
      ∃ u, WorstCase model env s i q side u ∧ ∀ v,
        u.map Scalar.toFinite = scalars model.parameters.length v →
        Scalar.lt τ (.finite (model.sideAt q side v s.space.values.point - side.2.rat)) = false
        ∨ ∃ k ∈ cuts, model.CutsOff k q side v)
    ∧ ∀ k ∈ cuts, ∃ p ∈ remaining, ∃ i ∈ p.2, ∃ q side, model.IsSide i q side
      ∧ ∃ u, WorstCase model env s i q side u ∧ ∀ v,
        u.map Scalar.toFinite = scalars model.parameters.length v →
        Scalar.lt τ (.finite (model.sideAt q side v s.space.values.point - side.2.rat)) = true
        ∧ model.CutsOff k q side v := by
  obtain ⟨rfl, hfound, hcuts⟩ := Participants.yields_gatherCuts
    (fun p hp hne cs t hy => hready.eq_of_yields_cut hrem hp hne hy) h
  refine ⟨rfl, fun p hp i hi q side hside => ?_, fun k hk => ?_⟩
  · obtain ⟨plane, hplane, hmem⟩ := hready.exists_plane hrem hp (List.ne_nil_of_mem hi)
    obtain ⟨cs, hy, hsub⟩ := hfound p hp (List.ne_nil_of_mem hi)
    obtain ⟨hanswers, -⟩ := hplane.prepared.cuts_answer (fun i hi => (hmem i hi).2)
      ((yields_cut_of_plane hplane.plane_eq).mp hy).1
    obtain ⟨hform, r, hr, hrcs⟩ := hanswers i hi q side hside
    obtain ⟨u, hu, hv⟩ := sideCut_of_ready hplane hτ hfin (hmem i hi).1 hside hform
      (hsharp p hp i hi q side hside plane hplane.plane_eq) hr
    refine ⟨u, hu, fun v huv => (hv v huv).imp And.left ?_⟩
    rintro ⟨-, k, rfl, hk⟩
    exact ⟨k, hsub k (hrcs k rfl), hk⟩
  · obtain ⟨p, hp, hne, cs, hy, hk⟩ := hcuts k hk
    obtain ⟨plane, hplane, hmem⟩ := hready.exists_plane hrem hp hne
    obtain ⟨-, hanswered⟩ := hplane.prepared.cuts_answer (fun i hi => (hmem i hi).2)
      ((yields_cut_of_plane hplane.plane_eq).mp hy).1
    obtain ⟨i, hi, q, side, hside, hform, hcut⟩ := hanswered k hk
    obtain ⟨u, hu, hv⟩ := sideCut_of_ready hplane hτ hfin (hmem i hi).1 hside hform
      (hsharp p hp i hi q side hside plane hplane.plane_eq) hcut
    refine ⟨p, hp, i, hi, q, side, hside, u, hu, fun v huv => ?_⟩
    rcases hv v huv with ⟨-, hnone⟩ | ⟨hlt, k', hk', hoff⟩
    · cases hnone
    · exact ⟨hlt, Option.some.inj hk' ▸ hoff⟩

end Session

end RobustOpt
