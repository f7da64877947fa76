import RobustOpt.Proofs.Extremes
import RobustOpt.Proofs.Rounds

/-!
# Runs

A successful resolution registers all constraints, prepares the sets, and makes rounds of cuts until
a solve confirms no optimum, a round makes no cuts, or the limit is reached. The coefficients of all
cuts are sharp if those at the extreme values of the parameters are, which is a finite condition.

## Main definitions

* `Workspace.Visits`: the sessions at the beginning of the rounds of a run.
* `Workspace.SharpRun`: no negligible nonzero coefficients arise in a run.
* `Session.Enumerable`: the remaining constraints belong to boxes and budget sets.
* `Harvest.workspace`: a small model that later modules look at.

## Main statements

* `Workspace.yields_runModel`: how a successful resolution ends.
* `Workspace.sharpRun_of_extremes`: when the coefficients of all cuts are sharp.
-/

namespace RobustOpt

open Bilinear

namespace Session

variable {w : Workspace Extended} {model : Model Extended} {prefs : Preferences Extended}
  {report : Bool} {env : Environment Extended} {s t : Session Extended}
  {remaining : List (ℕ × List ℕ)}

/-- The remaining constraints belong to boxes and budget sets. -/
def Enumerable (w : Workspace Extended) (remaining : List (ℕ × List ℕ)) : Prop :=
  ∀ p ∈ remaining, p.2 ≠ [] →
    (w.uncertaintySet p.1).Checked ∧ (w.uncertaintySet p.1).HasExtremes

theorem Enumerable.manageable (h : Enumerable w remaining)
    (hown : ∀ p ∈ remaining, ∀ i ∈ p.2, i ∈ model.owned p.1) : Manageable w model remaining := by
    intro p hp i hi
    obtain ⟨hs, hex⟩ := h p hp (List.ne_nil_of_mem hi)
    exact ⟨hown p hp i hi, hex.isGeometric, hs⟩

/-- A worst case that the set of a remaining constraint answers consists of extreme values. -/
theorem Ready.exists_extremes (hready : Ready w model prefs s) (hrem : Manageable w model remaining)
    (henum : Enumerable w remaining) {p : ℕ × List ℕ} (hp : p ∈ remaining) {i : ℕ} (hi : i ∈ p.2)
    {q : SparseMatrix Extended} {side : Extended × Extended} (hside : model.IsSide i q side)
    {u : List Extended} (hu : WorstCase model env s i q side u) :
    ∃ v, u.map Scalar.toFinite = scalars model.parameters.length v
      ∧ ∀ j < model.parameters.length,
        v j ∈ (w.uncertaintySet (model.setFor i)).extremes model j := by
  obtain ⟨hs, hex⟩ := henum p hp (List.ne_nil_of_mem hi)
  obtain ⟨hown, hgeo, -⟩ := hrem p hp i hi
  obtain ⟨hlt, howner⟩ := Model.mem_owned.mp hown
  rw [← howner] at hs hex hgeo
  obtain ⟨hcore, plane, hplane, hindex⟩ := hready i hlt hgeo hs
  have hform := hplane.prepared.mem_forms hindex hside
  obtain ⟨v, huv, hv⟩ := hplane.exists_extremes ((UncertaintySet.checked_of_core hcore).mpr hs)
    ((UncertaintySet.hasExtremes_of_core hcore).mpr hex)
    (fun j hj hA => (hplane.onlyUses _ hform).slope_eq_zero hj hA _ _ _) hu
  refine ⟨v, huv, fun j hj => ?_⟩
  rw [← UncertaintySet.extremes_of_core hcore]
  exact hv j hj

/-- All coefficients of cuts at extreme values of the parameters are sharp. -/
def SharpExtremes (w : Workspace Extended) (model : Model Extended) : Prop :=
  ∀ i q side, model.IsSide i q side → ∀ v,
    (∀ j < model.parameters.length, v j ∈ (w.uncertaintySet (model.setFor i)).extremes model j) →
    ∀ j ≤ model.decisions.length,
      Scalar.isSharp (Extended.finite (weight q model.parameters.length side.1.rat v j)) = true

/-- Sharp coefficients at extreme values make sharp cuts. -/
theorem SharpExtremes.sharpCuts (h : SharpExtremes w model) (hready : Ready w model prefs s)
    (hrem : Manageable w model remaining) (henum : Enumerable w remaining)
    (hfin : s.space.values.Finite) : SharpCuts model env remaining s := by
  intro p hp i hi q side hside plane hplane u lhs hworst _ k hk
  obtain ⟨plane', hready', hmem⟩ := hready.exists_plane hrem hp (List.ne_nil_of_mem hi)
  obtain ⟨howner, hindex⟩ := hmem i hi
  have hfits := hready'.fits _ (hready'.prepared.mem_forms hindex hside)
  have hsign : IsSign side.1 := by
    obtain ⟨c, -, -, hsides⟩ := hside
    exact (Bounded.sides_spec hsides).1
  rw [Model.point_eq model hfin] at hworst
  have hu : WorstCase model env s i q side u := by
    unfold WorstCase
    rw [howner]
    exact CuttingPlane.worstCase_eq_ok hfits.shaped hsign.isFinite hworst
  obtain ⟨v, huv, hv⟩ := hready.exists_extremes hrem henum hp hi hside hu
  rw [huv, substitute_spec hfits.shaped hsign.isFinite] at hk
  obtain ⟨j, hj, rfl⟩ := List.mem_map.mp hk
  exact h i q side hside v hv j (Nat.le_of_lt_succ (List.mem_range.mp hj))

end Session

namespace Workspace

variable {w : Workspace Extended} {id : ℕ} {settings : Settings Extended}
  {prefs : Preferences Extended} {env : Environment Extended} {remaining : List (ℕ × List ℕ)}
  {s t : Session Extended} {k : ℕ}

/-- The participants of a resolution of a model of a workspace. -/
abbrev participantsFor (w : Workspace Extended) (id : ℕ) (settings : Settings Extended)
    (prefs : Preferences Extended) (env : Environment Extended) :=
  w.participants (w.model id) settings.reportScenarios.isTrue prefs env

/-- The session at the beginning of a round of a resolution, when `k` rounds of cuts were made, and
the constraints that remained after the reformulations. -/
def Visits (w : Workspace Extended) (id : ℕ) (settings : Settings Extended)
    (prefs : Preferences Extended) (env : Environment Extended) (remaining : List (ℕ × List ℕ))
    (k : ℕ) (s : Session Extended) : Prop :=
  ∃ r s₀ n s₁, (w.participantsFor id settings prefs env).registerAll.Yields ⟨w, none⟩ r s₀
    ∧ ((w.participantsFor id settings prefs env).prepare r).Yields s₀ (n, remaining) s₁
    ∧ (w.participantsFor id settings prefs env).Reaches remaining s₁ k s

/-- The session at which the rounds begin. -/
theorem Visits.exists_start {remaining : List (ℕ × List ℕ)} {k : ℕ} {s : Session Extended}
    (h : w.Visits id settings prefs env remaining k s) :
    ∃ s₁, w.Visits id settings prefs env remaining 0 s₁
      ∧ (w.participantsFor id settings prefs env).Reaches remaining s₁ k s := by
  obtain ⟨r, s₀, n, s₁, hreg, hprep, hreach⟩ := h
  exact ⟨s₁, ⟨r, s₀, n, s₁, hreg, hprep, .refl⟩, hreach⟩

/-- No nonzero coefficient below the tolerance for zero arises: not in the matrices of the uncertain
constraints, and not in the cuts of a round that the limit admits. -/
structure SharpRun (w : Workspace Extended) (id : ℕ) (settings : Settings Extended)
    (prefs : Preferences Extended) (env : Environment Extended) : Prop where
  forms : (w.model id).SharpForms
  cuts : ∀ remaining k s, w.Visits id settings prefs env remaining k s → k ≤ settings.rounds →
    ∀ status t, ((w.participantsFor id settings prefs env).solve).Yields s status t →
      status.isConfirmed = true → Session.SharpCuts (w.model id) env remaining t

/-- What remains after the reformulations of a sound workspace is manageable. -/
theorem Sound.manageable {model : Model Extended} (hw : w.Sound model) :
    Session.Manageable w model (env.remaining model prefs) := by
  intro p hp i hi
  obtain ⟨j, hj, rfl⟩ := List.mem_map.mp hp
  have hown := (List.mem_filter.mp hi).1
  obtain ⟨hlt, rfl⟩ := Model.mem_owned.mp hown
  exact ⟨hown, hw.geometric i hlt, (hw.wellFormed i hlt).checked⟩

/-- The sessions a resolution visits are reached from one whose master has what was reformulated. -/
theorem Visits.exists_reformed (hw : w.Sound (w.model id)) (hforms : (w.model id).SharpForms)
    {remaining : List (ℕ × List ℕ)} {k : ℕ} {s : Session Extended}
    (h : w.Visits id settings prefs env remaining k s) :
    env.Fair (w.model id) prefs ∧ remaining = env.remaining (w.model id) prefs
      ∧ ∃ s₁, Session.Reformed w (w.model id) prefs env (w.model id).registry.owners s₁
        ∧ w.Visits id settings prefs env remaining 0 s₁
        ∧ (w.participantsFor id settings prefs env).Reaches remaining s₁ k s := by
  obtain ⟨r, s₀, n, s₁, hreg, hprep, hreach⟩ := h
  obtain ⟨rfl, hregistered, -⟩ := Session.registered_of_yields hreg
  obtain ⟨hfair, rfl, hreformed⟩ := Session.reformed_of_prepare hw hforms hregistered hprep
  exact ⟨hfair, rfl, s₁, hreformed, ⟨_, s₀, n, s₁, hreg, hprep, .refl⟩, hreach⟩

/-- Rounds lead from visited sessions to visited ones. -/
theorem Visits.reaches {remaining : List (ℕ × List ℕ)} {k : ℕ} {s t : Session Extended}
    (h : w.Visits id settings prefs env remaining 0 s)
    (hreach : (w.participantsFor id settings prefs env).Reaches remaining s k t) :
    w.Visits id settings prefs env remaining k t := by
  obtain ⟨r, s₀, n, s₁, hreg, hprep, hzero⟩ := h
  cases hzero
  exact ⟨r, s₀, n, s, hreg, hprep, hreach⟩

/-- The sets are ready when the rounds begin, and the remaining constraints are their own. -/
theorem Visits.ready (h : w.Visits id settings prefs env remaining 0 s)
    (hforms : (w.model id).SharpForms) : Session.Ready w (w.model id) prefs s
      ∧ s.space.values = w.values ∧ ∀ p ∈ remaining, ∀ i ∈ p.2, i ∈ (w.model id).owned p.1 := by
  obtain ⟨r, s₀, n, s₁, hreg, hprep, hreach⟩ := h
  cases hreach
  obtain ⟨rfl, hregistered, -⟩ := Session.registered_of_yields hreg
  exact Session.ready_of_prepare hforms hregistered hprep

/-- The constraints that remain are determined by the run. -/
theorem Visits.remaining_unique {remaining' : List (ℕ × List ℕ)} {k' : ℕ}
    (h : w.Visits id settings prefs env remaining k s)
    (h' : w.Visits id settings prefs env remaining' k' t) : remaining = remaining' := by
  obtain ⟨r, s₀, n, s₁, hreg, hprep, -⟩ := h
  obtain ⟨r', s₀', n', s₁', hreg', hprep', -⟩ := h'
  obtain ⟨rfl, rfl⟩ := hreg.unique hreg'
  obtain ⟨heq, -⟩ := hprep.unique hprep'
  exact (Prod.mk.inj heq).2

/-- How a successful resolution ends: some round begins with a solve of the master that confirms
no optimum, or one after which there are no cuts, or the rounds run out. -/
theorem yields_runModel {result : SolveResult Extended} {g : Resolution Extended}
    (h : w.runModel id settings prefs env = (.ok result, g)) :
    ∃ remaining k s t u status, w.Visits id settings prefs env remaining k s
      ∧ k ≤ settings.rounds ∧ result.iterations = k
      ∧ ((w.participantsFor id settings prefs env).solve).Yields s status t
      ∧ g.world.space.values = u.space.values ∧ g.world.master = u.master
      ∧ result.value = (g.world.currentMaster.value?).getD 0
      ∧ ((status.isConfirmed = false ∧ result.status = status ∧ u = t)
        ∨ (status.isConfirmed = true ∧ result.status = status
          ∧ ((w.participantsFor id settings prefs env).gatherCuts remaining).Yields t [] u)
        ∨ (status.isConfirmed = true ∧ result.status = .iterationLimit ∧ k = settings.rounds
          ∧ ∃ cuts ≠ [],
            ((w.participantsFor id settings prefs env).gatherCuts remaining).Yields t cuts u)) := by
  have h : (run (w.model id) settings prefs env).Yields ⟨⟨w, none⟩, none⟩ result g := h
  obtain ⟨r, g', hresolve, h⟩ := Action.yields_bind.mp (Action.yields_get_bind.mp h)
  rw [Action.yields_get_bind] at h
  obtain ⟨rfl, rfl⟩ := Action.yields_pure.mp h
  obtain ⟨registry, s₀, n, remaining, s₁, u, hreg, hprep, hloop, hend⟩ :=
    Participants.yields_resolve hresolve
  obtain ⟨k, s, t, status, hreach, hk, hiter, hsolve, hcases⟩ := Participants.yields_cutLoop hloop
  refine ⟨remaining, k, s, t, u, status, ⟨registry, s₀, n, s₁, hreg, hprep, hreach⟩, hk,
    by simpa using hiter, hsolve, ?_, ?_, rfl, hcases⟩
  · rcases hend with h | ⟨found, h⟩
    · rw [h]
    · exact (Session.frame_of_yields_collectScenarios h).1
  · rcases hend with h | ⟨found, h⟩
    · rw [h]
    · exact (Session.frame_of_yields_collectScenarios h).2

/-- A resolution that ends with a solution, or at the limit, found it in its last solve. There are
no cuts for it, or the limit kept them from being added. -/
theorem exists_last_solve {result : SolveResult Extended} {g : Resolution Extended}
    (h : w.runModel id settings prefs env = (.ok result, g))
    (hend : result.status = .optimal ∨ result.status = .iterationLimit) :
    ∃ remaining k s t u cuts, w.Visits id settings prefs env remaining k s ∧ k ≤ settings.rounds
      ∧ ((w.participantsFor id settings prefs env).solve).Yields s .optimal t
      ∧ ((w.participantsFor id settings prefs env).gatherCuts remaining).Yields t cuts u
      ∧ g.world.space.values = u.space.values
      ∧ result.value = (u.currentMaster.value?).getD 0
      ∧ (result.status = .optimal → cuts = []) := by
  obtain ⟨remaining, k, s, t, u, status, hv, hk, -, hsolve, hvalues, hmaster, hvalue, hcases⟩ :=
    yields_runModel h
  have hcurrent : g.world.currentMaster = u.currentMaster := by
    rw [Session.currentMaster, hmaster]
    rfl
  rw [hcurrent] at hvalue
  rcases hcases with ⟨hc, hs, -⟩ | ⟨hc, hs, hgather⟩ | ⟨hc, hs, -, cuts, -, hgather⟩
  · rw [← hs] at hc
    rcases hend with hend | hend <;> rw [hend] at hc hs
    · cases hc
    · obtain rfl | rfl | rfl := Session.status_of_yields_solve hsolve <;> cases hs
  · obtain rfl := Session.eq_optimal_of_confirmed hsolve hc
    exact ⟨remaining, k, s, t, u, [], hv, hk, hsolve, hgather, hvalues, hvalue, fun _ => rfl⟩
  · obtain rfl := Session.eq_optimal_of_confirmed hsolve hc
    refine ⟨remaining, k, s, t, u, cuts, hv, hk, hsolve, hgather, hvalues, hvalue, fun hopt => ?_⟩
    rw [hopt] at hs
    cases hs

/-- The sessions of a run have finite values and sets that are ready. -/
theorem Visits.finite (h : w.Visits id settings prefs env remaining k s)
    (hm : env.master.Feasible) (hforms : (w.model id).SharpForms) (hfin : w.values.Finite)
    (henum : Session.Enumerable w remaining) : s.space.values.Finite
      ∧ Session.Ready w (w.model id) prefs s
      ∧ Session.Manageable w (w.model id) remaining := by
  obtain ⟨s₁, hstart, hreach⟩ := h.exists_start
  obtain ⟨hready, hvalues, hown⟩ := hstart.ready hforms
  have hrem := henum.manageable hown
  refine ⟨?_, hready.reaches hrem hreach, hrem⟩
  clear h
  induction hreach with
  | refl => exact hvalues ▸ hfin
  | round hreach hround ih =>
    obtain ⟨s', cuts, hsolve, -, -, -, rfl⟩ :=
      (hready.reaches hrem hreach).cases_round hrem hround
    exact (Session.values_of_yields_solve hm hsolve rfl).2.1 ih

/-- If all sets are boxes and budget sets, it is enough to look at the extreme values of the
parameters to know that no negligible coefficients arise. -/
theorem sharpRun_of_extremes (hm : env.master.Feasible) (hfin : w.values.Finite)
    (hforms : (w.model id).SharpForms)
    (hsets : ∀ i < (w.model id).uncertain.length,
      (w.uncertaintySet ((w.model id).setFor i)).Checked
        ∧ (w.uncertaintySet ((w.model id).setFor i)).HasExtremes)
    (hsharp : Session.SharpExtremes w (w.model id)) : w.SharpRun id settings prefs env := by
  refine ⟨hforms, fun remaining k s hv _ status t hsolve hstatus => ?_⟩
  have henum : Session.Enumerable w remaining := by
    obtain ⟨s₁, hstart, -⟩ := hv.exists_start
    intro p hp hne
    obtain ⟨i, hi⟩ := List.exists_mem_of_ne_nil _ hne
    obtain ⟨hlt, howner⟩ := Model.mem_owned.mp ((hstart.ready hforms).2.2 p hp i hi)
    exact howner ▸ hsets i hlt
  obtain ⟨hfins, hready, hrem⟩ := hv.finite hm hforms hfin henum
  obtain ⟨-, -, -, hsame, -⟩ := Session.frame_of_yields_solve hsolve
  exact hsharp.sharpCuts (hready.of_sameSets fun id _ => hsame id) hrem henum
    ((Session.values_of_yields_solve hm hsolve hstatus).2.1 hfins)

end Workspace

/-! ## A small model

Minimize the area whose yield reaches one, for yields between two numbers. Later modules look at
three instances: areas are not negative and yields lie between one and two; areas are not bounded;
or there is a single yield, so small that cuts neglect it. -/

namespace Harvest

def area (lower : Extended) : Decision Extended :=
  ⟨0, 0, "x", lower, .posInf, ⟨0, none, .decision 0, false, false⟩⟩

def yield (a b : ℚ) : Parameter Extended := ⟨0, 0, .text "u", .finite a, .finite b⟩

def enough (lower : Extended) (a b : ℚ) : UncertainConstraint Extended :=
  ⟨⟨[(area lower, ⟨[(yield a b, 1)], 0⟩)], ⟨[], 0⟩⟩, .finite 1, .posInf⟩

def model (lower : Extended) (a b : ℚ) : Model Extended where
  id := 0
  defaultSet := 0
  decisions := [area lower]
  parameters := [yield a b]
  certain := []
  uncertain := [⟨0, enough lower a b⟩]
  assignment := []
  objective := ⟨.minimize, (area lower).toAffine⟩
  result := none

def workspace (lower : Extended) (a b : ℚ) : Workspace Extended :=
  ⟨[model lower a b], [.newPolyhedral], fun _ => none, ⟨1, 0⟩⟩

/-- A yield below the tolerance for zero. -/
def tiny : ℚ := mkRat 1 1000000000000000000000

inductive Case : Extended → ℚ → ℚ → Prop
  | bounded : Case (.finite 0) 1 2
  | free : Case .negInf 1 2
  | single : Case (.finite 0) tiny tiny

/-- The masters that arise, with cuts and reformulated, and their outcomes. -/
def table : List (LinearProblem × LinearProblem.Outcome) :=
  let x : LinearProblem.Unknown := ⟨false, false⟩
  let dual : LinearProblem.Unknown := ⟨true, false⟩
  [(⟨[x], [1], [⟨[-1], false, 0⟩]⟩, .optimal 0 [0]),
    (⟨[x], [1], [⟨[-1], false, 0⟩, ⟨[-3 / 2], false, -1⟩]⟩, .optimal (2 / 3) [2 / 3]),
    (⟨[x], [1], [⟨[-1], false, 0⟩, ⟨[-3 / 2], false, -1⟩, ⟨[-1], false, -1⟩]⟩, .optimal 1 [1]),
    (⟨[x, dual, dual], [1, 0, 0],
      [⟨[-1, 0, 0], false, 0⟩, ⟨[-1, -1, 1], true, 0⟩, ⟨[0, 2, -1], false, -1⟩]⟩,
      .optimal 1 [1, 0, 1]),
    (⟨[x], [1], []⟩, .unbounded),
    (⟨[x, dual, dual], [1, 0, 0], [⟨[-1, -1, 1], true, 0⟩, ⟨[0, 2, -1], false, -1⟩]⟩,
      .optimal 1 [1, 0, 1]),
    (⟨[x], [1], [⟨[-1], false, 0⟩, ⟨[0], false, -1⟩]⟩, .infeasible),
    (⟨[x, x], [1, 0], [⟨[-1, 0], false, 0⟩, ⟨[-1, -1], true, 0⟩, ⟨[0, tiny], false, -1⟩]⟩,
      .optimal 1000000000000000000000 [1000000000000000000000, -1000000000000000000000])]

/-- The masters are solved by the table, and there are no adversarial problems. -/
def env : Environment Extended := ⟨.ofTable table, .ofTable [], fun _ is => is⟩

def prefs (cuts : Bool) : Preferences Extended :=
  [(Preferences.preferCuts, .truth cuts), (Preferences.cutTol, .integer 0)]

theorem exact_adversary : env.adversary.Exact := fun _ _ h => by cases h

theorem tiny_eq : tiny = 1 / 1000000000000000000000 := by norm_num [tiny]

theorem exact_master : env.master.Exact := by
  refine Solver.exact_ofTable fun e he => ?_
  simp only [table, List.mem_cons, List.not_mem_nil, or_false] at he
  rcases he with rfl | rfl | rfl | rfl | rfl | rfl | rfl | rfl <;>
    simp only [LinearProblem.Outcome.Correct, LinearProblem.Feasible, LinearProblem.Row.Holds,
      LinearProblem.inner, LinearProblem.Unknown.Admits, List.length_cons, List.length_nil,
      List.forall_mem_cons, tiny_eq]
  · refine ⟨by simp, by simp, fun y hy => ?_⟩
    obtain ⟨a, rfl⟩ := List.length_eq_one_iff.mp hy.1
    simp at hy ⊢
    linarith
  · refine ⟨by norm_num, by norm_num, fun y hy => ?_⟩
    obtain ⟨a, rfl⟩ := List.length_eq_one_iff.mp hy.1
    simp at hy ⊢
    linarith
  · refine ⟨by norm_num, by norm_num, fun y hy => ?_⟩
    obtain ⟨a, rfl⟩ := List.length_eq_one_iff.mp hy.1
    simp at hy ⊢
    linarith
  · refine ⟨by norm_num, by norm_num, fun y hy => ?_⟩
    obtain ⟨a, b, c, rfl⟩ := List.length_eq_three.mp hy.1
    simp at hy ⊢
    linarith
  · exact fun b => ⟨[b - 1], by simp, by simp⟩
  · refine ⟨by norm_num, by norm_num, fun y hy => ?_⟩
    obtain ⟨a, b, c, rfl⟩ := List.length_eq_three.mp hy.1
    simp at hy ⊢
    linarith
  · intro y hy
    obtain ⟨a, rfl⟩ := List.length_eq_one_iff.mp hy.1
    norm_num at hy
  · refine ⟨by norm_num, by norm_num, fun y hy => ?_⟩
    obtain ⟨a, b, rfl⟩ := List.length_eq_two.mp hy.1
    simp at hy ⊢
    linarith

variable {lower : Extended} {a b : ℚ}

/-- The matrix of the constraint: the product of yield and area. -/
def form : SparseMatrix Extended := ⟨[[(0, 1)], []], 2⟩

theorem constraint_eq {i : ℤ} {c : UncertainConstraint Extended}
    (h : (model lower a b).constraint? i = .ok c) : c = enough lower a b := by
  unfold Model.constraint? at h
  split at h
  · rename_i p hp
    obtain rfl := Except.ok.inj h
    obtain ⟨j, -, hj⟩ := Option.bind_eq_some_iff.mp hp
    obtain rfl := List.mem_singleton.mp (List.mem_of_getElem? hj)
    rfl
  · cases h

theorem matrix_eq (h : Case lower a b) {q : SparseMatrix Extended}
    (hq : (enough lower a b).expr.coefficientMatrix 1 1 = .ok q) : q = form := by
  have hform : (enough lower a b).expr.coefficientMatrix 1 1 = .ok form :=
    SparseMatrix.eq_ok_of_rows (by cases h <;> decide +kernel)
  exact Except.ok.inj (hq.symm.trans hform)

theorem sharpForms (h : Case lower a b) : (model lower a b).SharpForms := by
  intro i c hc q hq
  obtain rfl := constraint_eq hc
  obtain rfl := matrix_eq h hq
  unfold SparseMatrix.Sharp
  decide +kernel

theorem region_iff {u : ℕ → ℚ} : (UncertaintySet.newPolyhedral).Region (model lower a b) u
    ↔ a ≤ u 0 ∧ u 0 ≤ b := by
  refine (Polyhedral.region_of_isBox rfl).trans ⟨fun h => ?_, fun h i hi => ?_⟩
  · simpa [Between, model, yield, Model.parameterBounds] using h 0 Nat.zero_lt_one
  · obtain rfl : i = 0 := Nat.lt_one_iff.mp hi
    simpa [Between, model, yield, Model.parameterBounds] using h

theorem sound (h : Case lower a b) : (workspace lower a b).Sound (model lower a b) := by
  have hab : a ≤ b := by cases h <;> norm_num
  have hregion : ∀ i, (workspace lower a b).regionFor (model lower a b) i fun _ => a := fun i =>
    region_iff.mpr ⟨le_rfl, hab⟩
  have hserial : ∀ d ∈ (model lower a b).master.columns, d.serial < 1 := by
    cases h <;> decide +kernel
  constructor
  · exact fun i _ => rfl
  · exact fun i _ => Polyhedral.rational_of_isBox rfl (hregion i)
  · exact fun i _ => ⟨_, hregion i⟩
  · simpa [model, yield] using hab
  · rintro d (hd | hd)
    · obtain rfl := List.mem_singleton.mp hd
      exact Nat.zero_lt_one
    · exact hserial d hd
  · intro c x hx
    cases hx
  · exact fun d _ => d.admits_zero

/-- Cuts have sharp coefficients if yields lie between one and two. -/
theorem sharpRun {settings : Settings Extended} (h : Case lower 1 2) (cuts : Bool) :
    (workspace lower 1 2).SharpRun 0 settings (prefs cuts) env := by
  refine Workspace.sharpRun_of_extremes exact_master.feasible (sound h).finite (sharpForms h)
    (fun _ _ => ⟨trivial, rfl⟩) ?_
  rintro i q side ⟨c, hc, hq, hside⟩ v hv j hj
  obtain rfl := constraint_eq hc
  obtain rfl := matrix_eq h hq
  obtain rfl : side = (.finite (-1), .finite (-1)) := by
    have hmem : side ∈ [((.finite (-1), .finite (-1)) : Extended × Extended)] := hside
    exact List.mem_singleton.mp hmem
  have hmem : v 0 ∈ Polyhedral.extremes (.finite 1) (.finite 2) := hv 0 Nat.zero_lt_one
  have hvalue : v 0 = 1 ∨ v 0 = 2 ∨ v 0 = 3 / 2 := by
    simp only [Polyhedral.extremes, Polyhedral.freeValue, Extended.isFinite_finite] at hmem
    norm_num at hmem
    exact hmem
  have hweight : weight form 1 (-1) v 0 = -v 0 ∧ weight form 1 (-1) v 1 = 0 := by
    simp [weight, form, SparseMatrix.coef, SparseMatrix.entry, withOne, Finset.sum_range_succ]
  have hsharp : ∀ r ∈ ([-1, -2, -(3 / 2), 0] : List ℚ),
      Scalar.isSharp (Extended.finite r) = true := by
    decide +kernel
  obtain rfl | rfl : j = 0 ∨ j = 1 := Nat.le_one_iff_eq_zero_or_eq_one.mp hj
  · refine hsharp _ ?_
    show weight form 1 (-1) v 0 ∈ _
    rw [hweight.1]
    rcases hvalue with h | h | h <;> simp [h]
  · refine hsharp _ ?_
    show weight form 1 (-1) v 1 ∈ _
    simp [hweight.2]

/-- Status, rounds and value of a run with the default settings. -/
def outcome (lower : Extended) (a b : ℚ) (cuts : Bool) : Option (Status × ℕ × Extended) :=
  ((workspace lower a b).runModel 0 .defaults (prefs cuts) env).1.toOption.map fun r =>
    (r.status, r.iterations, r.value)

theorem exists_run {cuts : Bool} {status : Status} {k : ℕ} {value : Extended}
    (h : outcome lower a b cuts = some (status, k, value)) :
    ∃ r g, (workspace lower a b).runModel 0 .defaults (prefs cuts) env = (.ok r, g)
      ∧ r.status = status ∧ r.iterations = k ∧ r.value = value := by
  unfold outcome at h
  obtain ⟨r, hr, heq⟩ := Option.map_eq_some_iff.mp h
  cases hrun : (workspace lower a b).runModel 0 .defaults (prefs cuts) env with
  | mk res g =>
    rw [hrun] at hr
    cases res with
    | error => cases hr
    | ok r' =>
      obtain rfl := Option.some.inj hr
      simp only [Prod.mk.injEq] at heq
      exact ⟨r', g, rfl, heq⟩

set_option maxRecDepth 100000 in
/-- Two cuts find the least area whose yield reaches one. -/
theorem outcome_cuts : outcome (.finite 0) 1 2 true = some (.optimal, 2, .finite 1) := by
  decide +kernel

set_option maxRecDepth 100000 in
/-- The dual constraints lead there at once. -/
theorem outcome_dual : outcome (.finite 0) 1 2 false = some (.optimal, 0, .finite 1) := by
  decide +kernel

theorem tolerance (cuts : Bool) : Session.Tolerance (prefs cuts) 0 := rfl

end Harvest

end RobustOpt
