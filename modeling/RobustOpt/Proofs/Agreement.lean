import RobustOpt.Proofs.Safety

/-!
# Agreement of the two modes

A resolution either enforces uncertain constraints by cuts throughout or reformulates all of them.
With an exact solver and without tolerance both modes find the same value, since both solve the
robust problem. Their statuses agree too, except that the rounds of cuts stop before the first cut
if the linear part of a model is unbounded on its own.

## Main definitions

* `Preferences.PrefersCuts`, `Environment.Full`: what tells the modes apart.
* `Model.LinearlyUnbounded`: the linear part of a model admits arbitrarily good points.

## Main statements

* `Workspace.value_agrees`: the value of a run with cuts is that of a run without.
* `Workspace.status_agrees`: how a run with cuts ends if one without ends at an optimum.
-/

namespace RobustOpt

/-- The preferences ask for cuts. -/
def Preferences.PrefersCuts (prefs : Preferences Extended) : Prop :=
  (prefs.get Preferences.preferCuts (.truth false)).isTrue = true

/-- Every set undertakes all constraints it is offered. -/
def Environment.Full (env : Environment Extended) : Prop :=
  ∀ id offered, env.portion id offered = offered

/-- The linear part of a model, without its uncertain constraints, admits points of every cost. -/
def Model.LinearlyUnbounded (model : Model Extended) : Prop :=
  ∀ b : ℚ, ∃ y, model.master.Satisfied y ∧ model.objective.costAt y < b

section Modes

variable {model : Model Extended} {prefs : Preferences Extended} {env : Environment Extended}

theorem covered_of_prefersCuts (h : prefs.PrefersCuts) (id : ℕ) :
    env.covered model prefs id = [] := if_pos h

theorem covered_of_full (h : ¬ prefs.PrefersCuts) (henv : env.Full) (id : ℕ) :
    env.covered model prefs id = (model.owned id).map Int.ofNat := by
  unfold Preferences.PrefersCuts at h
  rw [Environment.covered, UncertaintySet.reformulated, if_neg h, henv]

theorem fair_of_full (h : ¬ prefs.PrefersCuts) (henv : env.Full) : env.Fair model prefs := by
  intro id _ j hj
  rw [covered_of_full h henv] at hj
  obtain ⟨i, hi, rfl⟩ := List.mem_map.mp hj
  exact ⟨i, hi, rfl⟩

/-- Sets that reformulate everything leave nothing to cuts. -/
theorem remaining_of_full (h : ¬ prefs.PrefersCuts) (henv : env.Full) {p : ℕ × List ℕ}
    (hp : p ∈ env.remaining model prefs) : p.2 = [] := by
  obtain ⟨id, -, rfl⟩ := List.mem_map.mp hp
  refine List.filter_eq_nil_iff.mpr fun i hi => ?_
  rw [covered_of_full h henv]
  simpa using hi

end Modes

namespace Participants

variable {α σ κ δ τ : Type} {p : Participants α σ κ δ τ} {remaining : List (κ × List ℕ)} {s t : σ}

/-- A round without remaining constraints makes no cuts. -/
theorem gatherCuts_of_empty (hempty : ∀ q ∈ remaining, q.2 = []) {cuts : List δ}
    (h : (p.gatherCuts remaining).Yields s cuts t) : t = s ∧ cuts = [] := by
  obtain ⟨rfl, -, hcuts⟩ := yields_gatherCuts (fun q hq hne => absurd (hempty q hq) hne) h
  refine ⟨rfl, List.eq_nil_iff_forall_not_mem.mpr fun c hc => ?_⟩
  obtain ⟨q, hq, hne, -⟩ := hcuts c hc
  exact hne (hempty q hq)

/-- Without remaining constraints there are no rounds. -/
theorem Reaches.eq_of_empty (hempty : ∀ q ∈ remaining, q.2 = []) {k : ℕ}
    (h : p.Reaches remaining s k t) : k = 0 ∧ t = s := by
  cases h with
  | refl => exact ⟨rfl, rfl⟩
  | round _ hround =>
    obtain ⟨_, _, _, _, -, -, hgather, hne, -⟩ := hround
    exact absurd (gatherCuts_of_empty hempty hgather).2 hne

/-- The first of several rounds. -/
theorem Reaches.exists_round {k : ℕ} (h : p.Reaches remaining s (k + 1) t) :
    ∃ u, p.Round remaining s u := by
  generalize hn : k + 1 = n at h
  induction h generalizing k with
  | refl => cases hn
  | @round j t u hreach hround ih =>
    cases j with
    | zero =>
      cases hreach
      exact ⟨u, hround⟩
    | succ j => exact ih rfl

end Participants

namespace Workspace

variable {w : Workspace Extended} {id : ℕ} {settings settings₁ settings₂ : Settings Extended}
  {prefs prefs₁ prefs₂ : Preferences Extended} {env env₁ env₂ : Environment Extended}

/-- A preparation that succeeds in one mode does in the other one. -/
theorem Visits.exists_visits (settings₂ : Settings Extended) (hw : w.Sound (w.model id))
    (hforms : (w.model id).SharpForms) (hno : ¬ prefs₂.PrefersCuts) (hfull : env₂.Full)
    {remaining : List (ℕ × List ℕ)} {k : ℕ} {s : Session Extended}
    (h : w.Visits id settings₁ prefs₁ env₁ remaining k s) :
    ∃ t, w.Visits id settings₂ prefs₂ env₂ (env₂.remaining (w.model id) prefs₂) 0 t
      ∧ Session.Relaxes w (w.model id) prefs₂ env₂ t := by
  obtain ⟨r, s₀, n, s₁, hreg, hprep, -⟩ := h
  obtain ⟨rfl, hregistered, hdec⟩ := Session.registered_of_yields hreg
  obtain ⟨u, -, hsetup, -, -⟩ := Participants.yields_prepare.mp hprep
  have hset := Session.setUp_of_yields hregistered hsetup
  obtain ⟨t₀, hreg₂, hregistered₂⟩ := Session.exists_registerAll prefs₂
    settings₂.reportScenarios.isTrue env₂ none hw.geometric
    fun i hi => hdec i hi (hw.geometric i hi)
  obtain ⟨t₁, hsetup₂, hset₂⟩ := hset.exists_setupAll prefs₂ settings₂.reportScenarios.isTrue env₂
    hw.geometric hregistered₂
  obtain ⟨n₂, t₂, hreform₂, ht₂⟩ := Session.exists_reformAll settings₂.reportScenarios.isTrue hw
    (fair_of_full hno hfull) (hset₂.reformed_nil env₂ hforms)
  exact ⟨t₂, ⟨_, t₀, n₂, t₂, hreg₂, Participants.yields_prepare.mpr
    ⟨t₁, _, hsetup₂, Session.yields_start.mpr rfl, hreform₂⟩, .refl⟩, ht₂.relaxes hw⟩

/-- A run that reformulates everything and ends at an optimum has found a robust feasible point
with the best value. -/
theorem robustFeasible_of_full (hw : w.Sound (w.model id)) (hforms : (w.model id).SharpForms)
    (hm : env.master.Exact) (hno : ¬ prefs.PrefersCuts) (hfull : env.Full)
    {result : SolveResult Extended} {g : Resolution Extended}
    (hrun : w.runModel id settings prefs env = (.ok result, g)) (hopt : result.status = .optimal) :
    w.RobustFeasible (w.model id) g.world.space.values.point
      ∧ result.value = (w.model id).objective.valueAt g.world.space.values.point
      ∧ ∀ x, w.RobustFeasible (w.model id) x → (w.model id).objective.direction.Prefers result.value
        ((w.model id).objective.valueAt x) := by
  obtain ⟨remaining, k, s, t, u, cuts, hv, -, hsolve, hgather, hvalues, hvalue, -⟩ :=
    exists_last_solve hrun (.inl hopt)
  obtain ⟨hfair, rfl, s₁, hreformed, -, hreach⟩ := hv.exists_reformed hw hforms
  have hempty : ∀ p ∈ env.remaining (w.model id) prefs, p.2 = [] := fun p hp =>
    remaining_of_full hno hfull hp
  obtain ⟨rfl, rfl⟩ := hreach.eq_of_empty hempty
  obtain ⟨rfl, -⟩ := Participants.gatherCuts_of_empty hempty hgather
  have hrel := hreformed.relaxes hw
  obtain ⟨hsat, -, hadm⟩ := Session.values_of_yields_solve hm.feasible hsolve rfl
  obtain ⟨hlinear, hcovered⟩ := hrel.of_satisfied hsat
  obtain ⟨hfin, hattained, hbest⟩ := optimal_of_solve hw hfair hm hrel hsolve
  rw [hvalues, hvalue, hattained]
  refine ⟨⟨hlinear, fun d hd => hadm d (hrel.admits d hd), fun i hi => ?_⟩, rfl, hbest⟩
  refine hcovered _ (Model.setFor_mem_owners hi) i ?_
  rw [covered_of_full hno hfull]
  exact List.mem_map_of_mem (Model.mem_owned.mpr ⟨hi, rfl⟩)

/-- Two values that are both best are equal. -/
theorem eq_of_prefers {direction : Direction} {a b : ℚ}
    (hab : direction.Prefers (.finite a) (.finite b))
    (hba : direction.Prefers (.finite b) (.finite a)) : a = b := by
  cases direction <;>
    simp only [Direction.Prefers, Extended.le_finite, decide_eq_true_eq] at hab hba
  · exact le_antisymm hab hba
  · exact le_antisymm hba hab

/-- The value of a resolution by cuts. If it ends at an optimum, the master that reformulates
everything is feasible, and its optimum has exactly the same value; if it ends infeasible, so does
the robust problem, and the other mode finds no optimum. -/
theorem value_agrees (hw : w.Sound (w.model id)) (hm₁ : env₁.master.Exact)
    (ha₁ : env₁.adversary.Exact) (hm₂ : env₂.master.Exact) (hfull : env₂.Full)
    (_ : prefs₁.PrefersCuts) (hno : ¬ prefs₂.PrefersCuts) (hτ : Session.Tolerance prefs₁ 0)
    (hsharp : w.SharpRun id settings₁ prefs₁ env₁) {result₁ : SolveResult Extended}
    {g₁ : Resolution Extended} (hrun₁ : w.runModel id settings₁ prefs₁ env₁ = (.ok result₁, g₁)) :
    (result₁.status = .optimal →
      (∃ remaining s, w.Visits id settings₂ prefs₂ env₂ remaining 0 s
        ∧ ∃ y, s.currentMaster.Satisfied y)
      ∧ ∀ result₂ g₂, w.runModel id settings₂ prefs₂ env₂ = (.ok result₂, g₂) →
        result₂.status = .optimal → result₂.value = result₁.value)
    ∧ (result₁.status = .infeasible →
      ∀ result₂ g₂, w.runModel id settings₂ prefs₂ env₂ = (.ok result₂, g₂) →
        result₂.status ≠ .optimal) := by
  refine ⟨fun hopt₁ => ?_, fun hinf result₂ g₂ hrun₂ hopt₂ => ?_⟩
  · obtain ⟨hsolves, -⟩ := solves_of_optimal hw hm₁ ha₁ hτ rfl hsharp hrun₁ hopt₁
    obtain ⟨hfin, -⟩ := best_of_solved hw hm₁ ha₁ hτ hsharp hrun₁ (.inl hopt₁)
    have hrobust := hsolves.robustFeasible
    constructor
    · obtain ⟨remaining, k, s, t, u, status, hv, -⟩ := yields_runModel hrun₁
      obtain ⟨t₂, hv₂, hrel⟩ :=
        hv.exists_visits settings₂ hw hsharp.forms hno hfull
      obtain ⟨y, -, hy⟩ := hrel.exists_satisfied hw (fair_of_full hno hfull) hrobust
      exact ⟨_, t₂, hv₂, y, hy⟩
    · intro result₂ g₂ hrun₂ hopt₂
      obtain ⟨hrobust₂, hvalue₂, hbest₂⟩ :=
        robustFeasible_of_full hw hsharp.forms hm₂ hno hfull hrun₂ hopt₂
      have h₁ := hsolves.best _ hrobust₂
      have h₂ := hbest₂ _ hrobust
      rw [hsolves.value_eq] at h₁ ⊢
      rw [hvalue₂] at h₂ ⊢
      simp only [Objective.valueAt, Affine.eval_eq_valueAt hfin] at h₁ h₂ ⊢
      rw [eq_of_prefers h₂ h₁]
  · obtain ⟨hrobust₂, -⟩ := robustFeasible_of_full hw hsharp.forms hm₂ hno hfull hrun₂ hopt₂
    exact not_robustFeasible_of_infeasible hw hm₁ ha₁ hτ hsharp hrun₁ hinf _ hrobust₂

theorem harvest_prefersCuts : (Harvest.prefs true).PrefersCuts := rfl

theorem harvest_prefersReformulation : ¬ (Harvest.prefs false).PrefersCuts := by
  unfold Preferences.PrefersCuts
  decide

theorem harvest_full : Harvest.env.Full := fun _ _ => rfl

/-- Both modes find the least area whose yield reaches one. -/
theorem harvest_value_agrees : ∃ result₁ g₁ result₂ g₂,
    (Harvest.workspace (.finite 0) 1 2).runModel 0 .defaults (Harvest.prefs true) Harvest.env
      = (.ok result₁, g₁)
    ∧ (Harvest.workspace (.finite 0) 1 2).runModel 0 .defaults (Harvest.prefs false) Harvest.env
      = (.ok result₂, g₂)
    ∧ result₁.status = .optimal ∧ result₂.status = .optimal ∧ result₂.value = result₁.value := by
  obtain ⟨result₁, g₁, hrun₁, hopt₁, -⟩ := Harvest.exists_run Harvest.outcome_cuts
  obtain ⟨result₂, g₂, hrun₂, hopt₂, -⟩ := Harvest.exists_run Harvest.outcome_dual
  refine ⟨result₁, g₁, result₂, g₂, hrun₁, hrun₂, hopt₁, hopt₂, ?_⟩
  exact ((value_agrees (Harvest.sound .bounded) Harvest.exact_master Harvest.exact_adversary
    Harvest.exact_master harvest_full harvest_prefersCuts harvest_prefersReformulation
    (Harvest.tolerance true) (Harvest.sharpRun .bounded true) hrun₁).1 hopt₁).2 _ _ hrun₂ hopt₂

/-! ## Statuses -/

/-- Before the first cut, a master that has nothing reformulated is as unbounded as the model. -/
theorem unbounded_iff_of_prefersCuts {model : Model Extended} {s : Session Extended}
    (hw : w.Sound model) (hcuts : prefs.PrefersCuts)
    (h : Session.Reformed w model prefs env model.registry.owners s) :
    (∀ b : ℚ, ∃ y, s.currentMaster.Satisfied y ∧ s.currentMaster.objective.costAt y < b)
      ↔ model.LinearlyUnbounded := by
  classical
  obtain ⟨cs, hmaster, henc⟩ := h.master
  rw [hmaster]
  refine forall_congr' fun b => ⟨fun ⟨y, hy, hlt⟩ => ⟨y, (henc.of_satisfied hy).1, hlt⟩, ?_⟩
  rintro ⟨y, hy, hlt⟩
  let z : Point := fun d => if d ∈ model.master.columns then y d else 0
  have hz : ∀ d ∈ model.master.columns, z d = y d := fun d hd => if_pos hd
  have hadm : ∀ d : Column, d.Admits (z d) := by
    intro d
    by_cases hd : d ∈ model.master.columns
    · rw [hz d hd]
      exact hy.2 d hd
    · simpa only [z, if_neg hd] using d.admits_zero
  -- no set reformulates anything, so the condition that the constraints encode is trivial
  have hcov : Session.Covered w model prefs env model.registry.owners z := by
    intro id _ j hj
    rw [covered_of_prefersCuts hcuts] at hj
    cases hj
  have hserial : ∀ d ∈ model.master.columns, d.serial < w.supply.serial := fun d hd =>
    hw.serial d (.inr hd)
  obtain ⟨x, hxz, hx⟩ := henc.exists_satisfied hserial ((Master.satisfied_congr hz).mpr hy) hcov
    fun c _ d _ _ => hadm d
  refine ⟨x, hx, ?_⟩
  have hcost : model.objective.costAt x = model.objective.costAt y :=
    Objective.costAt_congr fun d hd => by
      have hd : d ∈ model.master.columns := Master.mem_columns.mpr (.inl hd)
      rw [hxz d (hserial d hd), hz d hd]
  exact hcost.trans_lt hlt

/-- A solve with an optimum bounds the costs of the master it solves. -/
theorem exists_bound_of_solve {model : Model Extended} {report : Bool} {s t : Session Extended}
    (hm : env.master.Exact)
    (h : ((w.participants model report prefs env).solve).Yields s .optimal t) :
    ∃ b : ℚ, ∀ y, s.currentMaster.Satisfied y → b ≤ s.currentMaster.objective.costAt y := by
  have hstatus := (Session.frame_of_yields_solve h).2.2.2.2
  obtain ⟨m, v, hsolve, -, rfl⟩ := Session.yields_solve.mp h
  exact ⟨_, (Master.solve_optimal hm hsolve hstatus).2.2⟩

/-- A round leaves a master whose costs are bounded, since a solve found an optimum before the
cuts were added. -/
theorem exists_bound_of_round {model : Model Extended} {report : Bool}
    {remaining : List (ℕ × List ℕ)} {s t : Session Extended} (hm : env.master.Exact)
    (hready : Session.Ready w model prefs s) (hrem : Session.Manageable w model remaining)
    (h : (w.participants model report prefs env).Round remaining s t) :
    ∃ b : ℚ, ∀ y, t.currentMaster.Satisfied y → b ≤ t.currentMaster.objective.costAt y := by
  obtain ⟨s', cuts, hsolve, -, -, -, rfl⟩ := hready.cases_round hrem h
  obtain ⟨hobj, hcons, -⟩ := Session.frame_of_yields_solve hsolve
  obtain ⟨b, hb⟩ := exists_bound_of_solve hm hsolve
  refine ⟨b, fun y hy => ?_⟩
  have hy := (Master.satisfied_addConstraints.mp hy).1
  rw [Master.satisfied_iff_of_eq hobj hcons] at hy
  exact (hb y hy).trans_eq (congrArg (Objective.costAt · y) hobj.symm)

/-- A solve without a bound finds points of every cost. -/
theorem exists_cost_of_solve {model : Model Extended} {report : Bool} {s t : Session Extended}
    (hm : env.master.Exact)
    (h : ((w.participants model report prefs env).solve).Yields s .unbounded t) (b : ℚ) :
    ∃ y, s.currentMaster.Satisfied y ∧ s.currentMaster.objective.costAt y < b := by
  have hstatus := (Session.frame_of_yields_solve h).2.2.2.2
  obtain ⟨m, v, hsolve, -, rfl⟩ := Session.yields_solve.mp h
  exact Master.solve_unbounded hm hsolve hstatus b

/-- The first solve of a run by cuts is unbounded if the linear part of the model is. -/
theorem solve_of_linearlyUnbounded {model : Model Extended} {report : Bool} {status : Status}
    {s t : Session Extended} (hw : w.Sound model) (hm : env.master.Exact)
    (hcuts : prefs.PrefersCuts) (hlinear : model.LinearlyUnbounded)
    (h : Session.Reformed w model prefs env model.registry.owners s)
    (hsolve : ((w.participants model report prefs env).solve).Yields s status t) :
    status = .unbounded := by
  have hall := (unbounded_iff_of_prefersCuts hw hcuts h).mpr hlinear
  obtain rfl | rfl | rfl := Session.status_of_yields_solve hsolve
  · obtain ⟨b, hb⟩ := exists_bound_of_solve hm hsolve
    obtain ⟨y, hy, hlt⟩ := hall b
    exact absurd (hb y hy) hlt.not_ge
  · have hstatus := (Session.frame_of_yields_solve hsolve).2.2.2.2
    obtain ⟨m, v, hmsolve, -, rfl⟩ := Session.yields_solve.mp hsolve
    obtain ⟨y, hy, -⟩ := hall 0
    exact absurd hy (Master.solve_infeasible hm hmsolve hstatus y)
  · rfl

/-- A run by cuts ends unbounded exactly if the linear part of the model is unbounded, and then
without a round. -/
theorem unbounded_or_bounded (hw : w.Sound (w.model id)) (hm : env.master.Exact)
    (hforms : (w.model id).SharpForms) (hcuts : prefs.PrefersCuts) {result : SolveResult Extended}
    {g : Resolution Extended} (hrun : w.runModel id settings prefs env = (.ok result, g)) :
    (result.status = .unbounded ∧ result.iterations = 0 ∧ (w.model id).LinearlyUnbounded)
      ∨ (result.status ≠ .unbounded ∧ ¬ (w.model id).LinearlyUnbounded) := by
  obtain ⟨remaining, k, s, t, u, status, hv, -, hiter, hsolve, -, -, -, hend⟩ :=
    yields_runModel hrun
  obtain ⟨-, rfl, s₁, hreformed, -, hreach⟩ := hv.exists_reformed hw hforms
  -- only the last solve can end the run unbounded
  have hlast : result.status = .unbounded ↔ status = .unbounded := by
    rcases hend with ⟨-, hs, -⟩ | ⟨-, hs, -⟩ | ⟨hc, hs, -⟩
    · rw [hs]
    · rw [hs]
    · rw [hs, Session.eq_optimal_of_confirmed hsolve hc]
      exact iff_of_false (by decide) (by decide)
  cases hreach with
  | refl =>
    by_cases hlinear : (w.model id).LinearlyUnbounded
    · have := solve_of_linearlyUnbounded hw hm hcuts hlinear hreformed hsolve
      exact .inl ⟨hlast.mpr this, hiter, hlinear⟩
    · refine .inr ⟨fun hun => hlinear ?_, hlinear⟩
      obtain rfl := hlast.mp hun
      exact (unbounded_iff_of_prefersCuts hw hcuts hreformed).mp (exists_cost_of_solve hm hsolve)
  | @round k s' _ hreach hround =>
    refine .inr ⟨fun hun => ?_, fun hlinear => ?_⟩
    · obtain rfl := hlast.mp hun
      have hready := hreformed.ready.reaches hw.manageable hreach
      obtain ⟨b, hb⟩ := exists_bound_of_round hm hready hw.manageable hround
      obtain ⟨y, hy, hlt⟩ := exists_cost_of_solve hm hsolve b
      exact absurd (hb y hy) hlt.not_ge
    · obtain ⟨u', hfirst⟩ := (Participants.Reaches.round hreach hround).exists_round
      obtain ⟨v, cuts, hoptimal, -⟩ := hreformed.ready.cases_round hw.manageable hfirst
      cases solve_of_linearlyUnbounded hw hm hcuts hlinear hreformed hoptimal

/-- The status of a resolution by cuts, if the other mode ends at an optimum. Unless the limit of
rounds stops it, it ends at an optimum too, with one exception: a linear part that is unbounded by
itself ends the run before the first cut. -/
theorem status_agrees {τ : Extended} (hw : w.Sound (w.model id)) (hm₁ : env₁.master.Exact)
    (ha₁ : env₁.adversary.Exact) (hm₂ : env₂.master.Exact) (hfull : env₂.Full)
    (hcuts : prefs₁.PrefersCuts) (hno : ¬ prefs₂.PrefersCuts) (hτ : Session.Tolerance prefs₁ τ)
    (hsharp : w.SharpRun id settings₁ prefs₁ env₁) {result₁ result₂ : SolveResult Extended}
    {g₁ g₂ : Resolution Extended} (hrun₁ : w.runModel id settings₁ prefs₁ env₁ = (.ok result₁, g₁))
    (hrun₂ : w.runModel id settings₂ prefs₂ env₂ = (.ok result₂, g₂))
    (hopt : result₂.status = .optimal) (hlimit : result₁.status ≠ .iterationLimit) :
    (result₁.status = .optimal ∧ ¬ (w.model id).LinearlyUnbounded)
      ∨ (result₁.status = .unbounded ∧ result₁.iterations = 0
        ∧ (w.model id).LinearlyUnbounded) := by
  rcases unbounded_or_bounded hw hm₁ hsharp.forms hcuts hrun₁ with h | ⟨hbounded, hlinear⟩
  · exact .inr h
  · refine .inl ⟨?_, hlinear⟩
    have hrobust := (robustFeasible_of_full hw hsharp.forms hm₂ hno hfull hrun₂ hopt).1
    obtain ⟨remaining, k, s, t, u, status, -, -, -, hsolve, -, -, -, hend⟩ := yields_runModel hrun₁
    have hstatus : result₁.status = status := by
      rcases hend with ⟨-, hs, -⟩ | ⟨-, hs, -⟩ | ⟨-, hs, -⟩
      · exact hs
      · exact hs
      · exact absurd hs hlimit
    obtain rfl | rfl | rfl := Session.status_of_yields_solve hsolve
    · exact hstatus
    · exact absurd hrobust
        (not_robustFeasible_of_infeasible hw hm₁ ha₁ hτ hsharp hrun₁ hstatus _)
    · exact absurd hstatus hbounded

/-- Both modes find an optimum if areas are bounded below. -/
theorem harvest_status_agrees : ∃ result₁ g₁ result₂ g₂,
    (Harvest.workspace (.finite 0) 1 2).runModel 0 .defaults (Harvest.prefs true) Harvest.env
      = (.ok result₁, g₁)
    ∧ (Harvest.workspace (.finite 0) 1 2).runModel 0 .defaults (Harvest.prefs false) Harvest.env
      = (.ok result₂, g₂)
    ∧ result₂.status = .optimal ∧ result₁.status = .optimal
    ∧ ¬ (Harvest.model (.finite 0) 1 2).LinearlyUnbounded := by
  obtain ⟨result₁, g₁, hrun₁, hopt₁, -⟩ := Harvest.exists_run Harvest.outcome_cuts
  obtain ⟨result₂, g₂, hrun₂, hopt₂, -⟩ := Harvest.exists_run Harvest.outcome_dual
  have hagree := status_agrees (Harvest.sound .bounded) Harvest.exact_master
    Harvest.exact_adversary Harvest.exact_master harvest_full harvest_prefersCuts
    harvest_prefersReformulation (Harvest.tolerance true) (Harvest.sharpRun .bounded true) hrun₁
    hrun₂ hopt₂ (by rw [hopt₁]; decide)
  rcases hagree with ⟨-, hlinear⟩ | ⟨hun, -⟩
  · exact ⟨result₁, g₁, result₂, g₂, hrun₁, hrun₂, hopt₂, hopt₁, hlinear⟩
  · rw [hopt₁] at hun
    cases hun

/-- Everything asked of two runs of a model, by cuts and reformulated, the second of which ends at
an optimum and the first of which is not stopped by the limit. -/
structure Compared (w : Workspace Extended) (id : ℕ) (settings : Settings Extended)
    (prefs₁ prefs₂ : Preferences Extended) (env : Environment Extended)
    (result₁ result₂ : SolveResult Extended) : Prop where
  sound : w.Sound (w.model id)
  master : env.master.Exact
  adversary : env.adversary.Exact
  full : env.Full
  prefersCuts : prefs₁.PrefersCuts
  prefersReformulation : ¬ prefs₂.PrefersCuts
  tolerance : Session.Tolerance prefs₁ 0
  run₁ : ∃ g, w.runModel id settings prefs₁ env = (.ok result₁, g)
  run₂ : ∃ g, w.runModel id settings prefs₂ env = (.ok result₂, g)
  optimal : result₂.status = .optimal
  limit : result₁.status ≠ .iterationLimit

/-- Two runs of an instance of the small model. -/
theorem harvest_compared {lower : Extended} {a b : ℚ} (h : Harvest.Case lower a b)
    {status : Status} {k₁ k₂ : ℕ} {value₁ value₂ : Extended}
    (hcuts : Harvest.outcome lower a b true = some (status, k₁, value₁))
    (hdual : Harvest.outcome lower a b false = some (.optimal, k₂, value₂))
    (hstatus : status ≠ .iterationLimit) :
    ∃ result₁ result₂, (Harvest.workspace lower a b).Compared 0 .defaults (Harvest.prefs true)
      (Harvest.prefs false) Harvest.env result₁ result₂ ∧ result₁.status = status := by
  obtain ⟨result₁, g₁, hrun₁, rfl, -⟩ := Harvest.exists_run hcuts
  obtain ⟨result₂, g₂, hrun₂, hopt₂, -⟩ := Harvest.exists_run hdual
  exact ⟨result₁, result₂, ⟨Harvest.sound h, Harvest.exact_master, Harvest.exact_adversary,
    harvest_full, harvest_prefersCuts, harvest_prefersReformulation, Harvest.tolerance true,
    ⟨g₁, hrun₁⟩, ⟨g₂, hrun₂⟩, hopt₂, hstatus⟩, rfl⟩

set_option maxRecDepth 100000 in
/-- The modes do not always end alike. Without bounds on the area the linear part is unbounded, and
the run by cuts ends so, although all coefficients are sharp. And a single tiny yield is neglected
by the cut, so that the run by cuts ends infeasible, although the linear part is bounded. -/
theorem not_status_agrees :
    (¬ ∀ w id settings prefs₁ prefs₂ env result₁ result₂,
      Compared w id settings prefs₁ prefs₂ env result₁ result₂ →
      w.SharpRun id settings prefs₁ env → result₁.status = .optimal)
    ∧ ¬ ∀ w id settings prefs₁ prefs₂ env result₁ result₂,
      Compared w id settings prefs₁ prefs₂ env result₁ result₂ →
      ¬ (w.model id).LinearlyUnbounded → result₁.status = .optimal := by
  constructor
  · intro hall
    have hcuts : Harvest.outcome .negInf 1 2 true = some (.unbounded, 0, .negInf) := by
      decide +kernel
    have hdual : Harvest.outcome .negInf 1 2 false = some (.optimal, 0, .finite 1) := by
      decide +kernel
    obtain ⟨result₁, result₂, h, hstatus⟩ := harvest_compared .free hcuts hdual (by decide)
    have hopt := hall _ _ _ _ _ _ _ _ h (Harvest.sharpRun .free true)
    rw [hstatus] at hopt
    cases hopt
  · intro hall
    have hcuts : Harvest.outcome (.finite 0) Harvest.tiny Harvest.tiny true
        = some (.infeasible, 1, .posInf) := by
      decide +kernel
    have hdual : Harvest.outcome (.finite 0) Harvest.tiny Harvest.tiny false
        = some (.optimal, 0, .finite 1000000000000000000000) := by
      decide +kernel
    obtain ⟨result₁, result₂, h, hstatus⟩ := harvest_compared .single hcuts hdual (by decide)
    obtain ⟨g, hrun⟩ := h.run₁
    have hlinear : ¬ (Harvest.model (.finite 0) Harvest.tiny Harvest.tiny).LinearlyUnbounded := by
      rcases unbounded_or_bounded h.sound h.master (Harvest.sharpForms .single) h.prefersCuts hrun
        with ⟨hun, -⟩ | ⟨-, hlinear⟩
      · rw [hstatus] at hun
        cases hun
      · exact hlinear
    have hopt := hall _ _ _ _ _ _ _ _ h hlinear
    rw [hstatus] at hopt
    cases hopt

end Workspace

end RobustOpt
