import RobustOpt.Proofs.Frame
import RobustOpt.Proofs.Runs

/-!
# The reported solution

A model keeps the result of its last successful solve, while the values of its decision variables
are those of the last master that was solved. The two belong together after a success, and as long
as no later, failing solve gets as far as solving its master.

## Main definitions

* `Solver.Valued`: optima come with their cost.
* `Workspace.Fails`: a call fails.

## Main statements

* `Solver.builtin_valued`: the solver of the library is such a solver.
* `Workspace.objective_attempt`: result and values belong together after a success.
* `Workspace.result_describes`: the solve to which the result and the values belong.
-/

namespace RobustOpt

/-! ## Solvers -/

/-- An optimum has a value for every unknown, and their cost. -/
def LinearProblem.Priced (p : LinearProblem) (value : ℚ) (x : List ℚ) : Prop :=
  x.length = p.unknowns.length ∧ value = LinearProblem.inner p.cost x

/-- The optima of the solver come with their cost, be they best or not. -/
def Solver.Valued {α : Type} (s : Solver α) : Prop :=
  ∀ p value x, s p = .ok (.optimal value x) → p.Priced value x

theorem Simplex.length_contract (us : List LinearProblem.Unknown) (xs : List ℚ) :
    (contract us xs).length = us.length := by
  induction us generalizing xs with
  | nil => rfl
  | cons u us ih =>
    unfold contract
    split_ifs <;> simp [ih]

theorem Simplex.priced_of_solve {p : LinearProblem} {value : ℚ} {x : List ℚ}
    (h : Simplex.solve p = .optimal value x) : p.Priced value x := by
  unfold Simplex.solve at h
  dsimp only at h
  split_ifs at h
  split at h
  · cases h
  · obtain ⟨rfl, rfl⟩ := LinearProblem.Outcome.optimal.inj h
    exact ⟨length_contract _ _, rfl⟩

namespace LinearProblem

/-- A search keeps to problems with the unknowns and the cost of the first one. -/
theorem priced_of_search {p : LinearProblem} {fuel : ℕ} {todo : List LinearProblem}
    {best : Option (ℚ × List ℚ)} (htodo : ∀ q ∈ todo, q.unknowns = p.unknowns ∧ q.cost = p.cost)
    (hbest : ∀ b ∈ best, p.Priced b.1 b.2) {b : ℚ × List ℚ} (h : search fuel todo best = some b) :
    p.Priced b.1 b.2 := by
  induction fuel generalizing todo best with
  | zero => exact hbest b (by simpa [search] using h)
  | succ fuel ih =>
    cases todo with
    | nil => exact hbest b (by simpa [search] using h)
    | cons q rest =>
      obtain ⟨⟨hunknowns, hcost⟩, hrest⟩ := List.forall_mem_cons.mp htodo
      rw [search] at h
      cases hq : Simplex.solve q with
      | infeasible | unbounded =>
        rw [hq] at h
        exact ih hrest hbest h
      | optimal value x =>
        simp only [hq] at h
        split_ifs at h
        · cases hx : q.fractional? x with
          | none =>
            rw [hx] at h
            refine ih hrest (fun c hc => ?_) h
            obtain rfl := Option.some.inj hc
            obtain ⟨hlength, hvalue⟩ := Simplex.priced_of_solve hq
            exact ⟨hlength.trans (by rw [hunknowns]), by rw [hvalue, hcost]⟩
          | some split =>
            rw [hx] at h
            refine ih (fun c hc => ?_) hbest h
            rcases List.mem_cons.mp hc with rfl | hc
            · exact ⟨hunknowns, hcost⟩
            · rcases List.mem_cons.mp hc with rfl | hc
              · exact ⟨hunknowns, hcost⟩
              · exact hrest c hc
        · exact ih hrest hbest h

end LinearProblem

/-- The solver of the library answers optima with their cost. -/
theorem Solver.builtin_valued {α : Type} : (Solver.builtin : Solver α).Valued := by
  intro p value x h
  have h : p.solve = .optimal value x := Except.ok.inj h
  unfold LinearProblem.solve at h
  split_ifs at h
  · split at h
    · cases h
    · split at h <;> cases h
    · split at h
      · rename_i hsearch
        obtain ⟨rfl, rfl⟩ := LinearProblem.Outcome.optimal.inj h
        exact LinearProblem.priced_of_search (by simp) (by simp) hsearch
      · cases h
  · exact Simplex.priced_of_solve h

/-! ## Values of the objective -/

/-- The value of a form whose columns have finite values. -/
theorem LinearForm.value?_eq {f : LinearForm Extended} (hf : f.Finite) {v : Valuation Extended}
    (hv : ∀ c ∈ f.columns, ∃ q, v c = some (.finite q)) :
    f.value? v = some (.finite (f.valueAt v.point)) := by
  obtain ⟨hconstant, hterms⟩ := hf
  have hfold : ∀ (ts : List (Column × Extended)) (q : ℚ),
      (∀ t ∈ ts, Scalar.isFinite t.2 = true ∧ ∃ q, v t.1 = some (.finite q)) →
      ts.foldlM (fun acc t => (v t.1).map fun x => acc + t.2 * x) (.finite q)
        = some (Extended.finite (q + termsAt v.point ts)) := by
    intro ts
    induction ts with
    | nil => simp
    | cons t ts ih =>
      intro q h
      obtain ⟨⟨ht, p, hp⟩, hts⟩ := List.forall_mem_cons.mp h
      obtain ⟨c, hc⟩ := Extended.isFinite_iff.mp ht
      rw [List.foldlM_cons, hp, hc]
      refine (ih _ hts).trans ?_
      simp [termsAt_cons, hc, Valuation.point, hp, add_assoc]
  rw [value?, ← Extended.finite_rat hconstant]
  refine hfold _ _ fun t ht => ⟨hterms t ht, hv t.1 (List.mem_map_of_mem ht)⟩

/-- After an optimum the recorded value is that of the objective at the values given. -/
theorem Master.value?_of_solve {m m' : Master Extended} {v v' : Valuation Extended}
    {s : Solver Extended} (hs : s.Valued) (h : m.solve v s = .ok (m', v'))
    (ho : m'.status? = some .optimal) : m'.value? = m.objective.expr.form.value? v' := by
  obtain ⟨p, hp, ⟨value, x, hx, hc, rfl, rfl⟩ | ⟨-, rfl, -⟩ | ⟨-, rfl, -⟩⟩ := solve_eq_ok.mp h
  · obtain ⟨hlength, hterms, hspec⟩ := toProblem_spec hp
    obtain ⟨hl, hvalue⟩ := hs p value x hx
    have hmap := map_point_assign m.nodup_columns (hl.trans hlength) v
    have hcost : value = m.objective.costAt (assign m.columns (some x) v).point := by
      rw [hvalue, ← (hspec _).2, hmap]
    rw [LinearForm.value?_eq ⟨hc, hterms⟩ fun c hcol => ?_, hcost]
    · rw [value?, Option.map_some, Objective.costAt, LinearForm.valueAt]
      cases m.objective.direction <;> simp [Direction.factor, add_comm]
    · obtain ⟨i, hi, rfl⟩ := List.getElem_of_mem (mem_columns.mpr (.inl hcol))
      exact ⟨_, assign_getElem m.nodup_columns hi x v⟩
  · simp [status?] at ho
  · simp [status?] at ho

/-! ## One solve -/

namespace Workspace

variable {w : Workspace Extended} {id : ℕ} {a : Attempt Extended} {r : SolveResult Extended}

/-- The master of a run has the objective of its model. -/
theorem Visits.objective {settings : Settings Extended} {prefs : Preferences Extended}
    {env : Environment Extended} {remaining : List (ℕ × List ℕ)} {k : ℕ} {s : Session Extended}
    (h : w.Visits id settings prefs env remaining k s) :
    s.currentMaster.objective = (w.model id).objective := by
  obtain ⟨registry, s₀, n, s₁, -, hprep, hreach⟩ := h
  induction hreach with
  | refl =>
    obtain ⟨t, t', -, hstart, hreform⟩ := Participants.yields_prepare.mp hprep
    obtain rfl := Session.yields_start.mp hstart
    have hkeeps := Participants.keeps_reformAll (p := w.participantsFor id settings prefs env)
      registry fun j is => Session.keeps_reform_objective j is (w.model id).objective
    exact hkeeps.yields hreform rfl
  | round _ hround ih =>
    obtain ⟨status, t, cuts, u, hsolve, -, hgather, -, hadd⟩ := hround
    obtain ⟨hobjective, -⟩ := Session.frame_of_yields_solve hsolve
    obtain ⟨-, hmaster⟩ := (Participants.keeps_gatherCuts remaining fun id is =>
      Session.keeps_cut_master id is t.space.values t.master).yields hgather ⟨rfl, rfl⟩
    obtain rfl := Session.yields_addCuts.mp hadd
    show u.currentMaster.objective = _
    rw [← ih, ← hobjective, Session.currentMaster, hmaster]
    rfl

/-- The values a solve leaves after an optimum give its objective the value of its result. -/
theorem objective_attempt (hsolver : a.env.master.Valued) (h : (w.attempt id a).1 = .ok r)
    (hopt : r.status = .optimal) :
    (w.model id).objective.expr.form.value? (w.attempt id a).2.values = some r.value := by
  have hrun : ∃ g, w.runModel id a.settings a.prefs a.env = (.ok r, g)
      ∧ (w.attempt id a).2.values = g.world.space.values := by
    unfold attempt solve at h ⊢
    generalize w.runModel id a.settings a.prefs a.env = q at h ⊢
    rcases q with ⟨e | r', g⟩
    · cases h
    · obtain rfl := Except.ok.inj h
      exact ⟨g, rfl, rfl⟩
  obtain ⟨g, hrun, hvalues⟩ := hrun
  obtain ⟨remaining, k, s, t, u, cuts, hvisits, -, hsolve, hgather, hg, hvalue, -⟩ :=
    exists_last_solve hrun (.inl hopt)
  obtain ⟨huvalues, humaster⟩ := (Participants.keeps_gatherCuts remaining fun id is =>
    Session.keeps_cut_master id is t.space.values t.master).yields hgather ⟨rfl, rfl⟩
  have hstatus := (Session.frame_of_yields_solve hsolve).2.2.2.2
  obtain ⟨m, v, hm, -, rfl⟩ := Session.yields_solve.mp hsolve
  have hmvalue : m.value? = (w.model id).objective.expr.form.value? v := by
    rw [← hvisits.objective]
    exact Master.value?_of_solve hsolver hm hstatus
  obtain ⟨⟨_, x⟩, hx, -⟩ := Option.map_eq_some_iff.mp hstatus
  have hmx : m.value? = some x := by
    rw [Master.value?, show m.outcome = _ from hx]
    rfl
  rw [hvalues, hg, huvalues, hvalue, Session.currentMaster, humaster]
  show (w.model id).objective.expr.form.value? v = some (m.value?.getD 0)
  rw [← hmvalue, hmx]
  rfl

/-! ## Sequences of solves -/

/-- The call fails. -/
def Fails (id : ℕ) (w : Workspace Extended) (a : Attempt Extended) : Prop :=
  ∃ e, (w.attempt id a).1 = .error e

/-- Values outlast failing calls that do not solve their masters. -/
theorem values_afterAll {as : List (Attempt Extended)} (hfails : Throughout (Fails id) w id as)
    (hunsolved : Throughout (fun w a => ¬ w.SolvesMaster id a) w id as) :
    (w.afterAll id as).values = w.values := by
  induction as generalizing w with
  | nil => rfl
  | cons a as ih =>
    obtain ⟨⟨e, ha⟩, hfails⟩ := hfails
    obtain ⟨hsolves, hunsolved⟩ := hunsolved
    exact (ih hfails hunsolved).trans (values_attempt ha hsolves)

/-- Solves leave a model, except for its result, which is that of the last successful one. -/
theorem exists_last_success (hid : (w.model id).id = id) (hnew : (w.model id).result = none)
    (as : List (Attempt Extended)) :
    ∃ result, (w.afterAll id as).model id = { w.model id with result }
      ∧ ∀ r, result = some r → ∃ before a after, as = before ++ a :: after
        ∧ ((w.afterAll id before).attempt id a).1 = .ok r
        ∧ Throughout (Fails id) (w.afterAll id (before ++ [a])) id after := by
  induction as using List.reverseRecOn with
  | nil => exact ⟨none, by rw [← hnew]; rfl, fun r hr => by cases hr⟩
  | append_singleton as b ih =>
    obtain ⟨result, hmodel, hlast⟩ := ih
    have hid' : ((w.afterAll id as).model id).id = id := by rw [hmodel]; exact hid
    obtain ⟨result', hmodel', hcases⟩ := model_attempt hid' b
    refine ⟨result', ?_, fun r hr => ?_⟩
    · rw [afterAll_append]
      show ((w.afterAll id as).attempt id b).2.model id = _
      rw [hmodel', hmodel]
    · rcases hcases r hr with hok | ⟨herror, hold⟩
      · exact ⟨as, b, [], rfl, hok, trivial⟩
      · rw [hmodel] at hold
        obtain ⟨before, a, after, rfl, hok, hfails⟩ := hlast r hold
        refine ⟨before, a, after ++ [b], by simp, hok, throughout_append.mpr ⟨hfails, ?_, trivial⟩⟩
        rw [← afterAll_append, List.append_assoc]
        exact herror

/-- After any sequence of solves an optimal result of a model is that of the last successful one,
and it is the value of the objective at the values that this solve left. These are the present
values as long as no later, failing solve gets as far as solving its master. -/
theorem result_describes (hid : (w.model id).id = id) (hnew : (w.model id).result = none)
    (as : List (Attempt Extended)) (hsolvers : ∀ a ∈ as, a.env.master.Valued)
    (hr : ((w.afterAll id as).model id).result = some r) (hopt : r.status = .optimal) :
    ∃ before a after, as = before ++ a :: after
      ∧ ((w.afterAll id before).attempt id a).1 = .ok r
      ∧ Throughout (Fails id) (w.afterAll id (before ++ [a])) id after
      ∧ (w.model id).objective.expr.form.value? (w.afterAll id (before ++ [a])).values
        = some r.value
      ∧ (Throughout (fun w a => ¬ w.SolvesMaster id a) (w.afterAll id (before ++ [a])) id after →
        (w.model id).objective.expr.form.value? (w.afterAll id as).values = some r.value) := by
  obtain ⟨result, hmodel, hlast⟩ := exists_last_success hid hnew as
  rw [hmodel] at hr
  obtain ⟨before, a, after, rfl, hok, hfails⟩ := hlast r hr
  obtain ⟨_, hbefore, -⟩ := exists_last_success hid hnew before
  have hvalue : (w.model id).objective.expr.form.value? (w.afterAll id (before ++ [a])).values
      = some r.value := by
    have := objective_attempt (hsolvers a (by simp)) hok hopt
    rw [hbefore] at this
    rwa [afterAll_append]
  refine ⟨before, a, after, rfl, hok, hfails, hvalue, fun hunsolved => ?_⟩
  rw [← values_afterAll hfails hunsolved, ← afterAll_append] at hvalue
  simpa using hvalue

end Workspace

/-! ## A result without its values

The least dose that is strong enough, for potencies without an upper bound. The dual constraints
find it. Cuts cannot: they start from the least dose of all, for which no potency is the worst, and
that dose is what the failing solve leaves. -/

namespace Dose

def dose : Decision Extended :=
  ⟨0, 0, "x", .finite (-5), .finite 10, ⟨0, none, .decision 0, false, false⟩⟩

def potency : Parameter Extended := ⟨0, 0, .text "u", .finite 1, .posInf⟩

def model : Model Extended where
  id := 0
  defaultSet := 0
  decisions := [dose]
  parameters := [potency]
  certain := []
  uncertain := [⟨0, ⟨⟨[(dose, ⟨[(potency, 1)], 0⟩)], ⟨[], 0⟩⟩, .finite 1, .posInf⟩⟩]
  assignment := []
  objective := ⟨.minimize, dose.toAffine⟩
  result := none

def workspace : Workspace Extended := ⟨[model], [.newPolyhedral], fun _ => none, ⟨1, 0⟩⟩

def history : List (Attempt Extended) := [.preferring false, .preferring true]

/-- Status and value of the result, and the objective at the present values. -/
def report (as : List (Attempt Extended)) : Option (Status × Extended) × Option Extended :=
  let w := workspace.afterAll 0 as
  ((w.model 0).result.map fun r => (r.status, r.value), model.objective.expr.form.value? w.values)

set_option maxRecDepth 100000 in
/-- The second solve fails and leaves a dose that is too small, with the result of the first. -/
theorem report_failure : report history = (some (.optimal, 1), some (.finite (-5))) := by
  decide +kernel

theorem exists_result : ∃ r, ((workspace.afterAll 0 history).model 0).result = some r
    ∧ r.status = .optimal ∧ r.value = 1 := by
  obtain ⟨r, hr, heq⟩ := Option.map_eq_some_iff.mp (congrArg Prod.fst report_failure)
  exact ⟨r, hr, congrArg Prod.fst heq, congrArg Prod.snd heq⟩

theorem valued : ∀ a ∈ history, a.env.master.Valued := by
  intro a ha
  obtain ⟨cuts, rfl⟩ : ∃ cuts, a = .preferring cuts := by
    rcases List.mem_pair.mp ha with rfl | rfl
    exacts [⟨_, rfl⟩, ⟨_, rfl⟩]
  exact Solver.builtin_valued

/-- The result after the failing solve still describes the first one. -/
theorem dual_result_describes :
    (workspace.model 0).id = 0 ∧ (workspace.model 0).result = none
      ∧ (∀ a ∈ history, a.env.master.Valued)
      ∧ ∃ r, ((workspace.afterAll 0 history).model 0).result = some r
        ∧ r.status = .optimal ∧ r.value = 1
        ∧ ∃ before a after, history = before ++ a :: after
          ∧ ((workspace.afterAll 0 before).attempt 0 a).1 = .ok r
          ∧ Workspace.Throughout (Workspace.Fails 0) (workspace.afterAll 0 (before ++ [a])) 0 after
          ∧ model.objective.expr.form.value? (workspace.afterAll 0 (before ++ [a])).values
            = some r.value := by
  obtain ⟨r, hr, hopt, hvalue⟩ := exists_result
  obtain ⟨before, a, after, has, hok, hfails, hobjective, -⟩ :=
    Workspace.result_describes rfl rfl _ valued hr hopt
  exact ⟨rfl, rfl, valued, r, hr, hopt, hvalue, before, a, after, has, hok, hfails, hobjective⟩

/-- An optimal result need not be the value of the objective at the present values. -/
theorem not_result_describes_present :
    ¬ ∀ (as : List (Attempt Extended)) (r : SolveResult Extended),
      (∀ a ∈ as, a.env.master.Valued) → ((workspace.afterAll 0 as).model 0).result = some r →
      r.status = .optimal →
      model.objective.expr.form.value? (workspace.afterAll 0 as).values = some r.value := by
  intro h
  obtain ⟨r, hr, hopt, hvalue⟩ := exists_result
  have hpresent : (report history).2 = some r.value := h _ r valued hr hopt
  rw [report_failure, hvalue] at hpresent
  cases hpresent

end Dose

end RobustOpt
