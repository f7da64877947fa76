import RobustOpt.Proofs.Runs

/-!
# Safety of resolutions

Every master of a resolution relaxes the robust problem: a robust feasible point stays feasible
with suitable values of the auxiliary variables, whatever was reformulated and whichever cuts were
added. A resolution that stops at an optimum has looked at every remaining side in its worst case,
so what it found is robust feasible up to the tolerance and at least as good as any robust feasible
point.

## Main definitions

* `Session.Relaxes`: the invariant of the rounds.
* `Workspace.Solves`: a point that solves the robust problem up to a tolerance.

## Main statements

* `Workspace.run_safe`: what the outcome of a resolution says about the robust problem.
-/

namespace RobustOpt

open Bilinear

namespace Session

variable {w : Workspace Extended} {model : Model Extended} {prefs : Preferences Extended}
  {report : Bool} {env : Environment Extended} {s t : Session Extended}
  {remaining : List (ℕ × List ℕ)}

/-- The master of a session has the linear part of the model, constraints that encode what was
reformulated, and cuts that are sides at parameter values their sets allow. -/
structure Relaxes (w : Workspace Extended) (model : Model Extended) (prefs : Preferences Extended)
    (env : Environment Extended) (s : Session Extended) : Prop where
  ready : Ready w model prefs s
  finite : s.space.values.Finite
  admits : ∀ d, Decision.Owns model.decisions d → d.Admits (s.space.values.point d)
  objective : s.currentMaster.objective = model.objective
  constraints : ∃ cs cuts, s.currentMaster.constraints = model.master.constraints ++ cs ++ cuts
    ∧ Encodes w.supply.serial s.space.supply.serial cs
      (Covered w model prefs env model.registry.owners)
    ∧ ∀ k ∈ cuts, ∃ i < model.uncertain.length, ∃ q side v, model.IsSide i q side
      ∧ w.regionFor model i v ∧ model.CutsOff k q side v

theorem Reformed.relaxes (hw : w.Sound model)
    (h : Reformed w model prefs env model.registry.owners s) : Relaxes w model prefs env s := by
  obtain ⟨cs, hmaster, henc⟩ := h.master
  refine ⟨h.ready, ?_, ?_, ?_, cs, [], ?_, henc, by simp⟩
  · rw [h.values]
    exact hw.finite
  · rw [h.values]
    exact hw.admits
  · rw [hmaster]
    rfl
  · rw [hmaster]
    simp

/-- The value of a side depends on the decision variables only. -/
theorem sideAt_congr {x y : Point} (h : ∀ d, Decision.Owns model.decisions d → x d = y d)
    (q : SparseMatrix Extended) (side : Extended × Extended) (v : ℕ → ℚ) :
    model.sideAt q side v x = model.sideAt q side v y := by
  rw [Model.sideAt, Decision.valuesAt_congr h, Model.sideAt]

/-- What was reformulated holds at robust feasible points. -/
theorem covered_of_robust (hfair : env.Fair model prefs) {x : Point}
    (hx : w.RobustFeasible model x) : Covered w model prefs env model.registry.owners x := by
  intro id hid j hj
  obtain ⟨i, hi, rfl⟩ := hfair id hid j hj
  obtain ⟨hlt, rfl⟩ := Model.mem_owned.mp hi
  exact hx.robust i hlt

/-- The points of a master without its cuts. -/
theorem satisfied_iff_of_constraints {m : Master Extended}
    {base cuts : List (LinearConstraint Extended)} (hobj : m.objective = model.objective)
    (hcons : m.constraints = model.master.constraints ++ base ++ cuts) {y : Point} :
    m.Satisfied y ↔ (model.master.addConstraints base).Satisfied y
      ∧ ∀ k ∈ cuts, k.Holds y.exact ∧ ∀ d ∈ k.columns, d.Admits (y d) := by
  rw [← Master.satisfied_addConstraints]
  exact Master.satisfied_iff_of_eq hobj hcons

/-- A robust feasible point extends to the master. -/
theorem Relaxes.exists_satisfied (hw : w.Sound model) (hfair : env.Fair model prefs)
    (h : Relaxes w model prefs env s) {x : Point} (hx : w.RobustFeasible model x) :
    ∃ y : Point, (∀ d, model.Involves d → y d = x d) ∧ s.currentMaster.Satisfied y := by
  classical
  obtain ⟨cs, cuts, hcons, henc, hcuts⟩ := h.constraints
  -- columns that do not belong to the model are put at zero, which all of them admit
  let z : Point := fun d => if model.Involves d then x d else 0
  have hz : ∀ d, model.Involves d → z d = x d := fun d hd => if_pos hd
  have hadm : ∀ d : Column, d.Admits (z d) := by
    intro d
    by_cases hd : model.Involves d
    · rw [hz d hd]
      exact hd.elim (hx.admits d) (hx.certain.2 d)
    · simpa only [z, if_neg hd] using d.admits_zero
  have hsat : model.master.Satisfied z :=
    (Master.satisfied_congr fun d hd => hz d (.inr hd)).mpr hx.certain
  have hcov : Covered w model prefs env model.registry.owners z := fun id hid j hj =>
    (Model.HoldsRobustly.congr fun d hd => hz d (.inl hd)).mpr
      (covered_of_robust hfair hx id hid j hj)
  obtain ⟨y, hyz, hy⟩ := henc.exists_satisfied (fun d hd => hw.serial d (.inr hd)) hsat hcov
    fun c hc d hd hlt => hadm d
  have hagree : ∀ d, model.Involves d → y d = x d := fun d hd =>
    (hyz d (hw.serial d hd)).trans (hz d hd)
  refine ⟨y, hagree, (satisfied_iff_of_constraints h.objective hcons).mpr ⟨hy, fun k hk => ?_⟩⟩
  obtain ⟨i, hi, q, side, v, ⟨c, hc, hq, hside⟩, hv, hwithin, hholds⟩ := hcuts k hk
  constructor
  · rw [hholds, sideAt_congr fun d hd => hagree d (.inl hd)]
    exact hx.robust i hi c q hc hq side hside v hv
  · intro d hd
    have hown := LinearConstraint.within_iff_columns.mp hwithin d hd
    rw [hagree d (.inl hown)]
    exact hx.admits d hown

/-- A point of the master satisfies the linear part of the model and what was reformulated. -/
theorem Relaxes.of_satisfied (h : Relaxes w model prefs env s) {y : Point}
    (hy : s.currentMaster.Satisfied y) :
    model.master.Satisfied y ∧ Covered w model prefs env model.registry.owners y := by
  obtain ⟨cs, cuts, hcons, henc, -⟩ := h.constraints
  exact henc.of_satisfied ((satisfied_iff_of_constraints h.objective hcons).mp hy).1

/-! ## Rounds -/

/-- After a confirmed solve of the master the session still relaxes the robust problem. -/
theorem Relaxes.solve (hs : env.master.Feasible) (h : Relaxes w model prefs env s) {status : Status}
    (hy : ((w.participants model report prefs env).solve).Yields s status t)
    (hstatus : status.isConfirmed = true) : Relaxes w model prefs env t := by
  obtain ⟨hobj, hcons, hsupply, hsets, -⟩ := frame_of_yields_solve hy
  obtain ⟨-, hfin, hadm⟩ := values_of_yields_solve hs hy hstatus
  refine ⟨h.ready.of_sameSets fun id _ => hsets id, hfin h.finite,
    fun d hd => hadm d (h.admits d hd), hobj.trans h.objective, ?_⟩
  rw [hcons, hsupply]
  exact h.constraints

/-- Cuts at parameter values that their sets allow keep the relaxation. -/
theorem Relaxes.addCuts (h : Relaxes w model prefs env s) {ks : List (LinearConstraint Extended)}
    (hks : ∀ k ∈ ks, ∃ i < model.uncertain.length, ∃ q side v, model.IsSide i q side
      ∧ w.regionFor model i v ∧ model.CutsOff k q side v) :
    Relaxes w model prefs env { s with master := some (s.currentMaster.addConstraints ks) } := by
  obtain ⟨cs, cuts, hcons, henc, hcuts⟩ := h.constraints
  refine ⟨h.ready, h.finite, h.admits, h.objective, cs, cuts ++ ks, ?_, henc, fun k hk => ?_⟩
  · show (s.currentMaster.addConstraints ks).constraints = _
    rw [Master.constraints_addConstraints, hcons, List.append_assoc]
  · exact (List.mem_append.mp hk).elim (hcuts k) (hks k)

/-- The worst case that a set answers is one its parameters can take, and no other one is worse. -/
theorem Ready.worst (h : Ready w model prefs s) (hw : w.Sound model) (hs : env.adversary.Exact)
    {i : ℕ} (hi : i < model.uncertain.length) {q : SparseMatrix Extended}
    {side : Extended × Extended} (hside : model.IsSide i q side) {u : List Extended}
    (hu : WorstCase model env s i q side u) :
    ∃ v, u.map Scalar.toFinite = scalars model.parameters.length v ∧ w.regionFor model i v
      ∧ ∀ v', w.regionFor model i v' →
        model.sideAt q side v' s.space.values.point
          ≤ model.sideAt q side v s.space.values.point := by
  obtain ⟨plane, hready, hindices, hexact⟩ := h.of_mem_owners hw (Model.setFor_mem_owners hi)
  have hform := hready.prepared.mem_forms (hindices i (Model.mem_owned.mpr ⟨hi, rfl⟩)) hside
  exact (hexact _ hs).maximizes.exists_worst (hready.onlyUses _ hform) hu

/-- One round keeps the relaxation. -/
theorem Relaxes.round {τ : Extended} (hw : w.Sound model) (hm : env.master.Feasible)
    (ha : env.adversary.Exact) (hτ : Tolerance prefs τ) (hrem : Manageable w model remaining)
    (h : Relaxes w model prefs env s)
    (hsharp : ∀ status s', ((w.participants model report prefs env).solve).Yields s status s' →
      status.isConfirmed = true → SharpCuts model env remaining s')
    (hround : (w.participants model report prefs env).Round remaining s t) :
    Relaxes w model prefs env t := by
  obtain ⟨s', cuts, hsolve, -, hgather, -, rfl⟩ := h.ready.cases_round hrem hround
  have hrel := h.solve hm hsolve rfl
  obtain ⟨-, -, hcuts⟩ := spec_of_gatherCuts hrel.ready hrem hτ hrel.finite
    (hsharp _ s' hsolve rfl) hgather
  refine hrel.addCuts fun k hk => ?_
  obtain ⟨p, hp, i, hi, q, side, hside, u, hu, hv⟩ := hcuts k hk
  have hlt := (Model.mem_owned.mp (hrem p hp i hi).1).1
  obtain ⟨v, huv, hregion, -⟩ := hrel.ready.worst hw ha hlt hside hu
  exact ⟨i, hlt, q, side, v, hside, hregion, (hv v huv).2⟩

/-- A side that no cut was made for holds up to the tolerance in its worst case. -/
theorem le_add_tolerance {τ : Extended} (hτ : Scalar.le 0 τ = true) {a b r : ℚ} (hab : a ≤ b)
    (h : Scalar.lt τ (.finite (b - r)) = false) :
    Scalar.le (.finite a) (Extended.finite r + τ) = true := by
  cases τ with
  | finite t =>
    rw [Extended.lt_finite, decide_eq_false_iff_not, not_lt] at h
    rw [Extended.finite_add, Extended.le_finite, decide_eq_true_eq]
    linarith
  | posInf => rfl
  | negInf | undefined => cases hτ

/-- If a round makes no cuts, all remaining constraints hold up to the tolerance. -/
theorem Relaxes.within_of_no_cuts {τ : Extended} (hw : w.Sound model) (ha : env.adversary.Exact)
    (hτ : Tolerance prefs τ) (hpos : Scalar.le 0 τ = true) (hrem : Manageable w model remaining)
    (h : Relaxes w model prefs env s) (hsharp : SharpCuts model env remaining s)
    (hgather : ((w.participants model report prefs env).gatherCuts remaining).Yields s [] t) :
    t = s ∧ ∀ p ∈ remaining, ∀ i ∈ p.2,
      model.HoldsWithin τ (w.regionFor model i) s.space.values.point i := by
  obtain ⟨rfl, hsides, -⟩ := spec_of_gatherCuts h.ready hrem hτ h.finite hsharp hgather
  refine ⟨rfl, fun p hp i hi c q hc hq side hside v' hv' => ?_⟩
  obtain ⟨u, hu, hv⟩ := hsides p hp i hi q side ⟨c, hc, hq, hside⟩
  have hlt := (Model.mem_owned.mp (hrem p hp i hi).1).1
  obtain ⟨v, huv, -, hmax⟩ := h.ready.worst hw ha hlt ⟨c, hc, hq, hside⟩ hu
  obtain ⟨r, hr⟩ := Extended.isFinite_iff.mp (Bounded.sides_spec hside).2
  rcases hv v huv with hno | ⟨k, hk, -⟩
  · rw [hr, Extended.rat_finite] at hno
    rw [hr]
    exact le_add_tolerance hpos (hmax v' hv') hno
  · cases hk

end Session

namespace Workspace

variable {w : Workspace Extended} {id : ℕ} {settings : Settings Extended}
  {prefs : Preferences Extended} {env : Environment Extended}

/-- Every session a resolution visits relaxes the robust problem. -/
theorem Visits.relaxes {τ : Extended} (hw : w.Sound (w.model id)) (hm : env.master.Feasible)
    (ha : env.adversary.Exact) (hτ : Session.Tolerance prefs τ)
    (hsharp : w.SharpRun id settings prefs env) {remaining : List (ℕ × List ℕ)} {k : ℕ}
    {s : Session Extended} (h : w.Visits id settings prefs env remaining k s)
    (hk : k ≤ settings.rounds) :
    env.Fair (w.model id) prefs
      ∧ remaining = env.remaining (w.model id) prefs
      ∧ Session.Relaxes w (w.model id) prefs env s := by
  obtain ⟨hfair, rfl, s₁, hreformed, hvisit, hreach⟩ := h.exists_reformed hw hsharp.forms
  refine ⟨hfair, rfl, ?_⟩
  clear h
  induction hreach with
  | refl => exact hreformed.relaxes hw
  | @round k t u hreach hround ih =>
    have hk' := Nat.le_of_succ_le hk
    refine (ih hk').round hw hm ha hτ hw.manageable
      (fun status s' hy hc => ?_) hround
    exact hsharp.cuts _ k t (hvisit.reaches hreach) hk' status s' hy hc

/-- The objective of a model depends on its own columns only. -/
theorem valueAt_congr {model : Model Extended} {x y : Point}
    (h : ∀ d, model.Involves d → x d = y d) :
    model.objective.valueAt x = model.objective.valueAt y :=
  Affine.eval_congr fun d hd =>
    congrArg Extended.finite (h d (.inr (Master.mem_columns.mpr (.inl hd))))

/-- A point that solves the robust problem up to the tolerance: it satisfies the linear part of the
model, admits integrality, and every uncertain constraint holds at it within the tolerance. The
value is that of the objective, and no robust feasible point has a better one. -/
structure Solves (w : Workspace Extended) (model : Model Extended) (τ : Extended) (z : Point)
    (value : Extended) : Prop where
  certain : model.master.Satisfied z
  admits : ∀ d, Decision.Owns model.decisions d → d.Admits (z d)
  within : ∀ i < model.uncertain.length, model.HoldsWithin τ (w.regionFor model i) z i
  value_eq : value = model.objective.valueAt z
  best : ∀ x, w.RobustFeasible model x →
    model.objective.direction.Prefers value (model.objective.valueAt x)

/-- A solution without tolerance is robust feasible. -/
theorem Solves.robustFeasible {model : Model Extended} {z : Point} {value : Extended}
    (h : w.Solves model 0 z value) : w.RobustFeasible model z :=
  ⟨h.certain, h.admits, fun i hi => Model.holdsWithin_zero.mp (h.within i hi)⟩

/-- What an optimum of a session that relaxes the robust problem says. -/
theorem optimal_of_solve {model : Model Extended} {report : Bool} {s t : Session Extended}
    (hw : w.Sound model) (hfair : env.Fair model prefs) (hm : env.master.Exact)
    (h : Session.Relaxes w model prefs env s)
    (hy : ((w.participants model report prefs env).solve).Yields s .optimal t) :
    model.objective.expr.form.Finite
      ∧ t.currentMaster.value? = some (model.objective.valueAt t.space.values.point)
      ∧ ∀ x, w.RobustFeasible model x → model.objective.direction.Prefers
        (model.objective.valueAt t.space.values.point) (model.objective.valueAt x) := by
  have hstatus := (Session.frame_of_yields_solve hy).2.2.2.2
  obtain ⟨m, v, hsolve, -, rfl⟩ := Session.yields_solve.mp hy
  obtain ⟨hfin, hvalue, hbest⟩ := Master.solve_optimal hm hsolve hstatus
  rw [h.objective] at hfin hvalue hbest
  refine ⟨hfin, hvalue, fun x hx => ?_⟩
  obtain ⟨y, hagree, hsat⟩ := h.exists_satisfied hw hfair hx
  rw [← valueAt_congr hagree]
  exact (Objective.prefers_iff hfin _ _).mpr (hbest y hsat)

section Outcomes

variable {τ : Extended} {result : SolveResult Extended} {g : Resolution Extended}

/-- The value of a run that ends with a solution, or at the limit, is that of the objective, and no
robust feasible point has a better one. -/
theorem best_of_solved (hw : w.Sound (w.model id)) (hm : env.master.Exact)
    (ha : env.adversary.Exact) (hτ : Session.Tolerance prefs τ)
    (hsharp : w.SharpRun id settings prefs env)
    (hrun : w.runModel id settings prefs env = (.ok result, g))
    (hend : result.status = .optimal ∨ result.status = .iterationLimit) :
    (w.model id).objective.expr.form.Finite
      ∧ result.value = (w.model id).objective.valueAt g.world.space.values.point
      ∧ ∀ x, w.RobustFeasible (w.model id) x → (w.model id).objective.direction.Prefers result.value
        ((w.model id).objective.valueAt x) := by
  obtain ⟨remaining, k, s, t, u, cuts, hv, hk, hsolve, hgather, hvalues, hvalue, -⟩ :=
    exists_last_solve hrun hend
  obtain ⟨hfair, rfl, hrel⟩ := hv.relaxes hw hm.feasible ha hτ hsharp hk
  have hready := (hrel.solve hm.feasible hsolve rfl).ready
  obtain ⟨rfl, -⟩ := Participants.yields_gatherCuts
    (fun p hp hne cs t hy => hready.eq_of_yields_cut hw.manageable hp hne hy) hgather
  obtain ⟨hfin, hattained, hbest⟩ := optimal_of_solve hw hfair hm hrel hsolve
  rw [hvalues, hvalue, hattained]
  exact ⟨hfin, rfl, hbest⟩

/-- A run that ends at an optimum solves the robust problem up to the tolerance, and exactly for
what was reformulated. -/
theorem solves_of_optimal (hw : w.Sound (w.model id)) (hm : env.master.Exact)
    (ha : env.adversary.Exact) (hτ : Session.Tolerance prefs τ) (hpos : Scalar.le 0 τ = true)
    (hsharp : w.SharpRun id settings prefs env)
    (hrun : w.runModel id settings prefs env = (.ok result, g)) (hopt : result.status = .optimal) :
    w.Solves (w.model id) τ g.world.space.values.point result.value
    ∧ ∀ i < (w.model id).uncertain.length,
      (i : ℤ) ∈ env.covered (w.model id) prefs ((w.model id).setFor i) →
      (w.model id).HoldsRobustly (w.regionFor (w.model id) i) g.world.space.values.point i := by
  obtain ⟨-, hvalue, hbest⟩ := best_of_solved hw hm ha hτ hsharp hrun (.inl hopt)
  obtain ⟨remaining, k, s, t, u, cuts, hv, hk, hsolve, hgather, hvalues, -, hcuts⟩ :=
    exists_last_solve hrun (.inl hopt)
  obtain rfl := hcuts hopt
  obtain ⟨-, rfl, hrel⟩ := hv.relaxes hw hm.feasible ha hτ hsharp hk
  have hrel' := hrel.solve hm.feasible hsolve rfl
  obtain ⟨rfl, hwithin⟩ := hrel'.within_of_no_cuts hw ha hτ hpos hw.manageable
    (hsharp.cuts _ k s hv hk _ t hsolve rfl) hgather
  obtain ⟨hsat, -⟩ := Session.values_of_yields_solve hm.feasible hsolve rfl
  obtain ⟨hlinear, hcovered⟩ := hrel.of_satisfied hsat
  rw [hvalues] at hvalue ⊢
  have hcov : ∀ i < (w.model id).uncertain.length,
      (i : ℤ) ∈ env.covered (w.model id) prefs ((w.model id).setFor i) →
      (w.model id).HoldsRobustly (w.regionFor (w.model id) i) u.space.values.point i :=
    fun i hi hmem => hcovered _ (Model.setFor_mem_owners hi) i hmem
  refine ⟨⟨hlinear, hrel'.admits, fun i hi => ?_, hvalue, hbest⟩, hcov⟩
  by_cases hmem : (i : ℤ) ∈ env.covered (w.model id) prefs ((w.model id).setFor i)
  · exact (hcov i hi hmem).within hpos
  · refine hwithin _ (List.mem_map_of_mem (Model.setFor_mem_owners hi)) i ?_
    exact List.mem_filter.mpr ⟨Model.mem_owned.mpr ⟨hi, rfl⟩, by simpa using hmem⟩

/-- A run that ends infeasible proves that there is no robust feasible point. -/
theorem not_robustFeasible_of_infeasible (hw : w.Sound (w.model id)) (hm : env.master.Exact)
    (ha : env.adversary.Exact) (hτ : Session.Tolerance prefs τ)
    (hsharp : w.SharpRun id settings prefs env)
    (hrun : w.runModel id settings prefs env = (.ok result, g))
    (hinf : result.status = .infeasible) (x : Point) : ¬ w.RobustFeasible (w.model id) x := by
  intro hx
  obtain ⟨remaining, k, s, t, u, status, hv, hk, -, hsolve, -, -, -, hend⟩ := yields_runModel hrun
  obtain ⟨hfair, rfl, hrel⟩ := hv.relaxes hw hm.feasible ha hτ hsharp hk
  have hstatus : status = .infeasible := by
    rcases hend with ⟨-, hs, -⟩ | ⟨-, hs, -⟩ | ⟨-, hs, -⟩
    · rw [← hs, hinf]
    · rw [← hs, hinf]
    · rw [hinf] at hs
      cases hs
  subst hstatus
  have hfinal := (Session.frame_of_yields_solve hsolve).2.2.2.2
  obtain ⟨m, v, hmsolve, -, rfl⟩ := Session.yields_solve.mp hsolve
  obtain ⟨y, -, hsat⟩ := hrel.exists_satisfied hw hfair hx
  exact Master.solve_infeasible hm hmsolve hfinal y hsat

/-- The safety of resolutions, for sets that reformulate any part of their constraints and leave
the rest to cuts. Every robust feasible point extends to every master of a successful run. If the
run ends at an optimum, it solves the robust problem up to the tolerance, and what was reformulated
holds exactly. If the limit of rounds ends it, its value still bounds those of all robust feasible
points. If it ends infeasible, there is no robust feasible point. -/
theorem run_safe (hw : w.Sound (w.model id)) (hm : env.master.Exact) (ha : env.adversary.Exact)
    (hτ : Session.Tolerance prefs τ) (hpos : Scalar.le 0 τ = true)
    (hsharp : w.SharpRun id settings prefs env)
    (hrun : w.runModel id settings prefs env = (.ok result, g)) :
    (∀ remaining k s, w.Visits id settings prefs env remaining k s → k ≤ settings.rounds →
      ∀ x, w.RobustFeasible (w.model id) x →
        ∃ y : Point, (∀ d, (w.model id).Involves d → y d = x d) ∧ s.currentMaster.Satisfied y)
    ∧ (result.status = .optimal →
      w.Solves (w.model id) τ g.world.space.values.point result.value
      ∧ ∀ i < (w.model id).uncertain.length,
        (i : ℤ) ∈ env.covered (w.model id) prefs ((w.model id).setFor i) →
        (w.model id).HoldsRobustly (w.regionFor (w.model id) i) g.world.space.values.point i)
    ∧ (result.status = .iterationLimit → ∀ x, w.RobustFeasible (w.model id) x →
      (w.model id).objective.direction.Prefers result.value ((w.model id).objective.valueAt x))
    ∧ (result.status = .infeasible → ∀ x, ¬ w.RobustFeasible (w.model id) x) := by
  refine ⟨fun remaining k s hv hk x hx => ?_, fun hopt => ?_, fun hlimit => ?_, fun hinf => ?_⟩
  · obtain ⟨hfair, -, hrel⟩ := hv.relaxes hw hm.feasible ha hτ hsharp hk
    exact hrel.exists_satisfied hw hfair hx
  · exact solves_of_optimal hw hm ha hτ hpos hsharp hrun hopt
  · exact (best_of_solved hw hm ha hτ hsharp hrun (.inr hlimit)).2.2
  · exact not_robustFeasible_of_infeasible hw hm ha hτ hsharp hrun hinf

/-- The least area whose yield reaches one solves the robust problem of the small model. -/
theorem harvest_safe : ∃ result g, (Harvest.workspace (.finite 0) 1 2).runModel 0 .defaults
      (Harvest.prefs true) Harvest.env = (.ok result, g)
    ∧ result.status = .optimal ∧ result.iterations = 2 ∧ result.value = .finite 1
    ∧ (Harvest.workspace (.finite 0) 1 2).Solves (Harvest.model (.finite 0) 1 2) 0
      g.world.space.values.point result.value := by
  obtain ⟨result, g, hrun, hopt, hiter, hvalue⟩ := Harvest.exists_run Harvest.outcome_cuts
  have hsafe := run_safe (Harvest.sound .bounded) Harvest.exact_master Harvest.exact_adversary
    (Harvest.tolerance true) rfl (Harvest.sharpRun .bounded true) hrun
  exact ⟨result, g, hrun, hopt, hiter, hvalue, (hsafe.2.1 hopt).1⟩

end Outcomes

end Workspace

end RobustOpt
