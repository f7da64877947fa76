import RobustOpt.Proofs.Runs

/-!
# Convergence of the rounds

If the remaining constraints belong to boxes and budget sets, their worst cases are taken from
finitely many. A cut keeps its side from being violated at its worst case ever after, and each
round begins with a violated side, so no round repeats a side with a worst case and the rounds come
to an end whatever the limit.

## Main definitions

* `Model.remainingSides`: the sides of the remaining constraints.
* `Session.candidates`: all sides with all combinations of extreme values.
* `Session.Excludes`: the master of a session excludes violations of some of them.

## Main statements

* `Session.Excludes.round`: every round excludes one more.
* `Workspace.rounds_le`: how many rounds a resolution takes at most.
-/

namespace RobustOpt

open Bilinear

namespace Model

variable (model : Model Extended)

/-- The sides of the uncertain constraint at an index. -/
def sidesOf (i : ℕ) : List (Extended × Extended) :=
  match model.constraint? i with
  | .ok c => c.sides
  | .error _ => []

/-- The sides of the constraints that remain, with the index of their constraint. -/
def remainingSides (remaining : List (ℕ × List ℕ)) : List (ℕ × Extended × Extended) :=
  remaining.flatMap fun p => p.2.flatMap fun i => (model.sidesOf i).map (Prod.mk i)

variable {model}

theorem IsSide.mem_remainingSides {i : ℕ} {q : SparseMatrix Extended} {side : Extended × Extended}
    (h : model.IsSide i q side) {remaining : List (ℕ × List ℕ)} {p : ℕ × List ℕ}
    (hp : p ∈ remaining) (hi : i ∈ p.2) : (i, side) ∈ model.remainingSides remaining := by
  obtain ⟨c, hc, -, hside⟩ := h
  have hmem : side ∈ model.sidesOf i := by
    unfold sidesOf
    rw [hc]
    exact hside
  exact List.mem_flatMap.mpr ⟨p, hp, List.mem_flatMap.mpr ⟨i, hi, List.mem_map_of_mem hmem⟩⟩

theorem mem_of_mem_remainingSides {remaining : List (ℕ × List ℕ)} {key : ℕ × Extended × Extended}
    (h : key ∈ model.remainingSides remaining) : ∃ p ∈ remaining, key.1 ∈ p.2 := by
  obtain ⟨p, hp, h⟩ := List.mem_flatMap.mp h
  obtain ⟨i, hi, h⟩ := List.mem_flatMap.mp h
  obtain ⟨side, -, rfl⟩ := List.mem_map.mp h
  exact ⟨p, hp, hi⟩

/-- The matrix of a constraint is the same for all of its sides. -/
theorem IsSide.matrix_unique {i : ℕ} {q q' : SparseMatrix Extended}
    {side side' : Extended × Extended}
    (h : model.IsSide i q side) (h' : model.IsSide i q' side') : q = q' := by
  obtain ⟨c, hc, hq, -⟩ := h
  obtain ⟨c', hc', hq', -⟩ := h'
  obtain rfl := Except.ok.inj (hc.symm.trans hc')
  exact Except.ok.inj (hq.symm.trans hq')

end Model

/-- A vector of values, continued by zeros. -/
def extended {n : ℕ} (v : Fin n → ℚ) (j : ℕ) : ℚ := if h : j < n then v ⟨j, h⟩ else 0

theorem scalars_extended (n : ℕ) (v : ℕ → ℚ) :
    scalars n (extended fun j : Fin n => v j) = scalars n v := by
  refine List.map_congr_left fun j hj => ?_
  rw [extended, dif_pos (List.mem_range.mp hj)]

namespace Session

variable {w : Workspace Extended} {model : Model Extended} {prefs : Preferences Extended}
  {report : Bool} {env : Environment Extended} {s t : Session Extended}
  {remaining : List (ℕ × List ℕ)}

/-- A side of a remaining constraint with values of the parameters. -/
abbrev Candidate (model : Model Extended) : Type :=
  (ℕ × Extended × Extended) × (Fin model.parameters.length → ℚ)

/-- All sides of the remaining constraints, with all combinations of extreme values. -/
def candidates (w : Workspace Extended) (model : Model Extended) (remaining : List (ℕ × List ℕ)) :
    Finset (Candidate model) :=
  (model.remainingSides remaining).toFinset.biUnion fun key =>
    (Fintype.piFinset fun j : Fin model.parameters.length =>
      (w.uncertaintySet (model.setFor key.1)).extremes model j).image (Prod.mk key)

theorem mem_candidates {key : Candidate model} :
    key ∈ candidates w model remaining ↔ key.1 ∈ model.remainingSides remaining
      ∧ ∀ j : Fin model.parameters.length,
        key.2 j ∈ (w.uncertaintySet (model.setFor key.1.1)).extremes model j := by
  obtain ⟨side, v⟩ := key
  simp only [candidates, Finset.mem_biUnion, List.mem_toFinset, Finset.mem_image,
    Fintype.mem_piFinset, Prod.mk.injEq]
  constructor
  · rintro ⟨side', hside, v', hv, rfl, rfl⟩
    exact ⟨hside, hv⟩
  · rintro ⟨hside, hv⟩
    exact ⟨side, hside, v, hv, rfl, rfl⟩

/-- The number of candidates, if no parameter has more than `K` extreme values. -/
theorem card_candidates_le {K : ℕ}
    (hK : ∀ p ∈ remaining, ∀ i ∈ p.2, ∀ j,
      ((w.uncertaintySet (model.setFor i)).extremes model j).card ≤ K) :
    (candidates w model remaining).card
      ≤ (model.remainingSides remaining).length * K ^ model.parameters.length := by
  have hside : ∀ key ∈ (model.remainingSides remaining).toFinset,
      ((Fintype.piFinset fun j : Fin model.parameters.length =>
        (w.uncertaintySet (model.setFor key.1)).extremes model j).image (Prod.mk key)).card
        ≤ K ^ model.parameters.length := by
    intro key hkey
    obtain ⟨p, hp, hi⟩ := Model.mem_of_mem_remainingSides (List.mem_toFinset.mp hkey)
    calc _ ≤ (Fintype.piFinset fun j : Fin model.parameters.length =>
          (w.uncertaintySet (model.setFor key.1)).extremes model j).card := Finset.card_image_le
      _ = ∏ j : Fin model.parameters.length,
          ((w.uncertaintySet (model.setFor key.1)).extremes model j).card :=
        Fintype.card_piFinset _
      _ ≤ K ^ model.parameters.length := by
        refine (Finset.prod_le_pow_card _ _ K fun j _ => hK p hp _ hi j.val).trans_eq ?_
        rw [Finset.card_univ, Fintype.card_fin]
  calc (candidates w model remaining).card
      ≤ (model.remainingSides remaining).toFinset.card * K ^ model.parameters.length :=
        Finset.card_biUnion_le_card_mul _ _ _ hside
    _ ≤ (model.remainingSides remaining).length * K ^ model.parameters.length :=
        Nat.mul_le_mul_right _ (List.toFinset_card_le _)

/-- At all points of the master of a session, some candidates are not violated. -/
def Excludes (w : Workspace Extended) (model : Model Extended) (remaining : List (ℕ × List ℕ))
    (s : Session Extended) (keys : Finset (Candidate model)) : Prop :=
  keys ⊆ candidates w model remaining ∧ ∀ key ∈ keys, ∀ q, model.IsSide key.1.1 q key.1.2 →
    ∀ y, s.currentMaster.Satisfied y → model.sideAt q key.1.2 (extended key.2) y ≤ key.1.2.2.rat

/-- A violation beyond a tolerance that is not negative is positive. -/
theorem pos_of_tolerance_lt {τ : Extended} (hτ : Scalar.le 0 τ = true) {z : ℚ}
    (h : Scalar.lt τ (.finite z) = true) : 0 < z := by
  cases τ with
  | finite t =>
    rw [Extended.zero_eq, Extended.le_finite, decide_eq_true_eq] at hτ
    rw [Extended.lt_finite, decide_eq_true_eq] at h
    exact hτ.trans_lt h
  | negInf => cases hτ
  | posInf | undefined => cases h

/-- The worst case of a side of a remaining constraint is a candidate. -/
theorem Ready.exists_candidate (hready : Ready w model prefs s)
    (hrem : Manageable w model remaining) (henum : Enumerable w remaining) {p : ℕ × List ℕ}
    (hp : p ∈ remaining) {i : ℕ} (hi : i ∈ p.2) {q : SparseMatrix Extended}
    {side : Extended × Extended} (hside : model.IsSide i q side) {u : List Extended}
    (hu : WorstCase model env s i q side u) :
    ∃ v : Fin model.parameters.length → ℚ,
      u.map Scalar.toFinite = scalars model.parameters.length (extended v)
      ∧ ((i, side), v) ∈ candidates w model remaining := by
  obtain ⟨v, huv, hv⟩ := hready.exists_extremes hrem henum hp hi hside hu
  refine ⟨fun j => v j, ?_, mem_candidates.mpr ⟨hside.mem_remainingSides hp hi, ?_⟩⟩
  · rw [huv, scalars_extended]
  · intro j
    exact hv j j.isLt

/-- Each round finds a violated candidate, which was not excluded before, and excludes it. -/
theorem Excludes.round {τ : Extended} {keys : Finset (Candidate model)}
    (h : Excludes w model remaining s keys) (hm : env.master.Feasible) (hτ : Tolerance prefs τ)
    (hpos : Scalar.le 0 τ = true) (hready : Ready w model prefs s)
    (hrem : Manageable w model remaining) (henum : Enumerable w remaining)
    (hfin : s.space.values.Finite)
    (hsharp : ∀ s', ((w.participants model report prefs env).solve).Yields s .optimal s' →
      SharpCuts model env remaining s')
    (hround : (w.participants model report prefs env).Round remaining s t) :
    ∃ key ∉ keys, Excludes w model remaining t (insert key keys) := by
  obtain ⟨s', cuts, hsolve, hready', hgather, hne, rfl⟩ := hready.cases_round hrem hround
  obtain ⟨hobj, hcons, -⟩ := frame_of_yields_solve hsolve
  obtain ⟨hsat, hfin', -⟩ := values_of_yields_solve hm hsolve rfl
  obtain ⟨k, hk⟩ := List.exists_mem_of_ne_nil _ hne
  obtain ⟨-, -, hcuts⟩ := spec_of_gatherCuts hready' hrem hτ (hfin' hfin) (hsharp s' hsolve) hgather
  obtain ⟨p, hp, i, hi, q, side, hside, u, hu, hv⟩ := hcuts k hk
  obtain ⟨v, huv, hmem⟩ := hready'.exists_candidate hrem henum hp hi hside hu
  obtain ⟨hlt, -, hholds⟩ := hv _ huv
  refine ⟨((i, side), v), ?_, Finset.insert_subset hmem h.1, ?_⟩
  · intro hkey
    have hle := h.2 _ hkey q hside _ hsat
    exact absurd (pos_of_tolerance_lt hpos hlt) (not_lt.mpr (sub_nonpos.mpr hle))
  · intro key hkey q' hside' y hy
    obtain ⟨hy, hcut⟩ := Master.satisfied_addConstraints.mp hy
    rcases Finset.mem_insert.mp hkey with rfl | hkey
    · obtain rfl := hside.matrix_unique hside'
      exact (hholds y).mp (hcut k hk).1
    · exact h.2 key hkey q' hside' y ((Master.satisfied_iff_of_eq hobj hcons).mp hy)

end Session

namespace Workspace

open Session

variable {w : Workspace Extended} {id : ℕ} {settings : Settings Extended}
  {prefs : Preferences Extended} {env : Environment Extended} {remaining : List (ℕ × List ℕ)}
  {s t : Session Extended} {k : ℕ} {τ : Extended}

/-- After `k` rounds `k` candidates are excluded. -/
theorem Visits.exists_excludes (h : w.Visits id settings prefs env remaining 0 s)
    (hm : env.master.Feasible) (hτ : Tolerance prefs τ) (hpos : Scalar.le 0 τ = true)
    (hfin : w.values.Finite) (hsharp : w.SharpRun id settings prefs env)
    (henum : Enumerable w remaining)
    (hreach : (w.participantsFor id settings prefs env).Reaches remaining s k t)
    (hk : k ≤ settings.rounds + 1) :
    ∃ keys : Finset (Candidate (w.model id)), keys.card = k
      ∧ Excludes w (w.model id) remaining t keys := by
  induction hreach with
  | refl => exact ⟨∅, rfl, Finset.empty_subset _, by simp⟩
  | @round k u t hreach hround ih =>
    have hvisit := h.reaches hreach
    obtain ⟨hfinu, hready, hrem⟩ := hvisit.finite hm hsharp.forms hfin henum
    obtain ⟨keys, hcard, hkeys⟩ := ih (Nat.le_of_succ_le hk)
    obtain ⟨key, hkey, hnext⟩ := hkeys.round hm hτ hpos hready hrem henum hfinu
      (fun s' hsolve => hsharp.cuts _ k u hvisit (Nat.le_of_succ_le_succ hk) _ s' hsolve rfl) hround
    exact ⟨insert key keys, by rw [Finset.card_insert_of_notMem hkey, hcard], hnext⟩

/-- There are no more rounds than candidates. -/
theorem Visits.rounds_le {K : ℕ} (h : w.Visits id settings prefs env remaining 0 s)
    (hm : env.master.Feasible) (hτ : Tolerance prefs τ) (hpos : Scalar.le 0 τ = true)
    (hfin : w.values.Finite) (hsharp : w.SharpRun id settings prefs env)
    (henum : Enumerable w remaining)
    (hK : ∀ p ∈ remaining, p.2 ≠ [] → ∀ j,
      ((w.uncertaintySet p.1).extremes (w.model id) j).card ≤ K)
    (hreach : (w.participantsFor id settings prefs env).Reaches remaining s k t)
    (hk : k ≤ settings.rounds + 1) :
    k ≤ ((w.model id).remainingSides remaining).length * K ^ (w.model id).parameters.length := by
  obtain ⟨keys, hcard, hsub, -⟩ := h.exists_excludes hm hτ hpos hfin hsharp henum hreach hk
  obtain ⟨-, -, hown⟩ := h.ready hsharp.forms
  calc k = keys.card := hcard.symm
    _ ≤ (candidates w (w.model id) remaining).card := Finset.card_le_card hsub
    _ ≤ _ := card_candidates_le fun p hp i hi j => by
        rw [(Model.mem_owned.mp (hown p hp i hi)).2]
        exact hK p hp (List.ne_nil_of_mem hi) j

/-- A run takes no more rounds than there are candidates, so a limit of as many does not end it: at
the limit there would be yet another one to exclude. -/
theorem iterations_le {K : ℕ} (hv : w.Visits id settings prefs env remaining 0 s)
    (hm : env.master.Feasible) (hτ : Tolerance prefs τ) (hpos : Scalar.le 0 τ = true)
    (hfin : w.values.Finite) (hsharp : w.SharpRun id settings prefs env)
    (henum : Enumerable w remaining)
    (hK : ∀ p ∈ remaining, p.2 ≠ [] → ∀ j,
      ((w.uncertaintySet p.1).extremes (w.model id) j).card ≤ K)
    {result : SolveResult Extended} {g : Resolution Extended}
    (hrun : w.runModel id settings prefs env = (.ok result, g)) :
    result.iterations ≤ ((w.model id).remainingSides remaining).length
        * K ^ (w.model id).parameters.length
      ∧ (((w.model id).remainingSides remaining).length * K ^ (w.model id).parameters.length
        ≤ settings.rounds → result.status ≠ .iterationLimit) := by
  obtain ⟨remaining', k, s', t, u, status, hvisit, hk, hiter, hsolve, -, -, -, hend⟩ :=
    yields_runModel hrun
  obtain rfl := hv.remaining_unique hvisit
  obtain ⟨s₁, hstart, hreach⟩ := hvisit.exists_start
  have hrounds : ∀ {j : ℕ} {t : Session Extended},
      (w.participantsFor id settings prefs env).Reaches remaining s₁ j t → j ≤ settings.rounds + 1 →
      j ≤ ((w.model id).remainingSides remaining).length * K ^ (w.model id).parameters.length :=
    fun hreach hj => hstart.rounds_le hm hτ hpos hfin hsharp henum hK hreach hj
  refine ⟨hiter ▸ hrounds hreach (Nat.le_succ_of_le hk), fun hlimit hstatus => ?_⟩
  rcases hend with ⟨-, hs, -⟩ | ⟨hc, hs, -⟩ | ⟨hc, -, rfl, cuts, hne, hgather⟩
  · rw [← hs, hstatus] at hsolve
    obtain h | h | h := status_of_yields_solve hsolve <;> cases h
  · rw [← hs, hstatus] at hc
    cases hc
  · have hround : (w.participantsFor id settings prefs env).Round remaining s'
        { u with master := some (u.currentMaster.addConstraints cuts) } :=
      ⟨status, t, cuts, u, hsolve, hc, hgather, hne, yields_addCuts.mpr rfl⟩
    have hnext := hrounds (hreach.round hround) (Nat.le_refl _)
    omega

/-- The rounds converge. If the remaining constraints belong to boxes and budget sets, a run takes
at most as many rounds as there are sides of them, times five to the number of parameters, three
if there are boxes only; and with a limit of that many rounds it never ends at the limit. -/
theorem run_converges (hv : w.Visits id settings prefs env remaining 0 s)
    (hm : env.master.Feasible) (hτ : Tolerance prefs τ) (hpos : Scalar.le 0 τ = true)
    (hfin : w.values.Finite) (hsharp : w.SharpRun id settings prefs env)
    (henum : Enumerable w remaining) {result : SolveResult Extended} {g : Resolution Extended}
    (hrun : w.runModel id settings prefs env = (.ok result, g)) :
    (result.iterations ≤ ((w.model id).remainingSides remaining).length
        * 5 ^ (w.model id).parameters.length
      ∧ (((w.model id).remainingSides remaining).length * 5 ^ (w.model id).parameters.length
        ≤ settings.rounds → result.status ≠ .iterationLimit))
    ∧ ((∀ p ∈ remaining, p.2 ≠ [] → (w.uncertaintySet p.1).IsBox) →
      result.iterations ≤ ((w.model id).remainingSides remaining).length
          * 3 ^ (w.model id).parameters.length
        ∧ (((w.model id).remainingSides remaining).length * 3 ^ (w.model id).parameters.length
          ≤ settings.rounds → result.status ≠ .iterationLimit)) := by
  refine ⟨iterations_le hv hm hτ hpos hfin hsharp henum (fun p _ _ j => ?_) hrun, fun hbox =>
    iterations_le hv hm hτ hpos hfin hsharp henum (fun p hp hne j => ?_) hrun⟩
  · exact UncertaintySet.card_extremes_le _ _ j
  · exact (hbox p hp hne).card_extremes_le _ j

/-- One side and one parameter: at most three rounds of cuts. -/
theorem harvest_converges : ∃ result g, (Harvest.workspace (.finite 0) 1 2).runModel 0 .defaults
      (Harvest.prefs true) Harvest.env = (.ok result, g)
    ∧ result.iterations ≤ 3 ∧ result.status ≠ .iterationLimit := by
  obtain ⟨result, g, hrun, -⟩ := Harvest.exists_run Harvest.outcome_cuts
  obtain ⟨remaining, k, s, t, u, status, hv, -⟩ := yields_runModel hrun
  obtain ⟨s₁, hstart, -⟩ := hv.exists_start
  have hsound : (Harvest.workspace (.finite 0) 1 2).Sound
      ((Harvest.workspace (.finite 0) 1 2).model 0) := Harvest.sound .bounded
  have hforms : ((Harvest.workspace (.finite 0) 1 2).model 0).SharpForms :=
    Harvest.sharpForms .bounded
  have hremaining := (hv.exists_reformed hsound hforms).2.1
  obtain rfl : remaining = [(0, [0])] := by
    rw [hremaining]
    decide +kernel
  have henum : Enumerable (Harvest.workspace (.finite 0) 1 2) [(0, [0])] := by
    intro p hp _
    obtain rfl := List.mem_singleton.mp hp
    exact ⟨trivial, rfl⟩
  have hbox : ∀ p ∈ [((0, [0]) : ℕ × List ℕ)], p.2 ≠ [] →
      ((Harvest.workspace (.finite 0) 1 2).uncertaintySet p.1).IsBox := by
    intro p hp _
    obtain rfl := List.mem_singleton.mp hp
    rfl
  have hconverges := (run_converges hstart Harvest.exact_master.feasible (Harvest.tolerance true)
    (by decide) hsound.finite (Harvest.sharpRun .bounded true) henum hrun).2 hbox
  have hbound : ((Harvest.model (.finite 0) 1 2).remainingSides [(0, [0])]).length
      * 3 ^ (Harvest.model (.finite 0) 1 2).parameters.length = 3 := by
    decide +kernel
  have hlimit : (Settings.defaults : Settings Extended).rounds = 100 := by
    decide +kernel
  refine ⟨result, g, hrun, hconverges.1.trans_eq hbound, hconverges.2 ?_⟩
  rw [hlimit]
  exact hbound.trans_le (by decide)

end Workspace

end RobustOpt
