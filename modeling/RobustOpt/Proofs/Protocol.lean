import RobustOpt.Proofs.Action
import RobustOpt.Resolution.Protocol

/-!
# Runs of the protocol

What a successful run of the protocol went through, whatever the participants are: the constraints
in order at their registration, then round after round of cuts until a solve of the master ends the
run. Invariants of the participants are carried along.

## Main definitions

* `Participants.Round`: a solve of the master and the cuts added after it.
* `Participants.Reaches`: the state after a number of rounds.

## Main statements

* `Participants.cases_cutLoop`: what a turn of the rounds does.
* `Participants.yields_cutLoop`: how the rounds of cuts end.
* `Participants.yields_resolve`: the parts of a run.
-/

namespace RobustOpt

namespace Registry

variable {κ : Type}

/-- The registry after constraints were registered in order. -/
def ofOwner (owner : ℕ → κ) (k : ℕ) : Registry ℕ κ := ⟨(List.range k).map fun i => (i, owner i)⟩

theorem owner?_ofOwner_eq_none (owner : ℕ → κ) (k : ℕ) : (ofOwner owner k).owner? k = none := by
  simp only [owner?, ofOwner, Option.map_eq_none_iff, List.find?_eq_none, List.forall_mem_map,
    List.mem_range, beq_iff_eq]
  omega

theorem missing_ofOwner (owner : ℕ → κ) (k : ℕ) : (ofOwner owner k).missing id k = [] := by
  simp only [missing, List.filter_eq_nil_iff, List.mem_range, contains, owner?, id_eq,
    Bool.not_eq_true', Option.isSome_map]
  intro i hi
  simp only [Bool.not_eq_false, List.find?_isSome]
  exact ⟨(i, owner i), by simp [ofOwner, hi], by simp⟩

theorem register_ofOwner [BEq κ] (owner : ℕ → κ) (k : ℕ) :
    (ofOwner owner k).register k (owner k) = .ok (ofOwner owner (k + 1)) := by
  rw [register, owner?_ofOwner_eq_none]
  simp [ofOwner, List.range_succ]

variable [BEq κ] [LawfulBEq κ]

omit [LawfulBEq κ] in
theorem indices_ofOwner (owner : ℕ → κ) (k : ℕ) (s : κ) :
    (ofOwner owner k).indices s = (List.range k).filter fun i => owner i == s := by
  simp [indices, ofOwner, List.filter_map, Function.comp_def]

theorem mem_firsts {β : Type} [BEq β] [LawfulBEq β] {x : β} {l : List β} :
    x ∈ firsts l ↔ x ∈ l := by
  match l with
  | [] => simp [firsts]
  | y :: l =>
    rw [firsts, List.mem_cons, List.mem_cons, List.mem_filter, mem_firsts]
    by_cases h : x = y
    · simp [h]
    · simp [h, Ne.symm h]

theorem nodup_firsts {β : Type} [BEq β] [LawfulBEq β] (l : List β) : (firsts l).Nodup := by
  induction l with
  | nil => exact List.nodup_nil
  | cons x l ih => exact List.nodup_cons.mpr ⟨by simp, ih.filter _⟩

theorem mem_owners_ofOwner {owner : ℕ → κ} {k : ℕ} {s : κ} :
    s ∈ (ofOwner owner k).owners ↔ ∃ i < k, owner i = s := by
  simp [owners, ofOwner, mem_firsts]

end Registry

namespace Participants

variable {α σ κ δ τ : Type} {p : Participants α σ κ δ τ} {s t u : σ}

theorem yields_require {k : κ} {phase : Phase} {r : Unit} :
    (p.require k phase).Yields s r t ↔ p.supports k phase = true ∧ s = t := by
  unfold require
  split_ifs with h
  · simp [h]
  · exact iff_of_false Action.yields_throw fun hs => h hs.1

/-! ## Registration -/

section Registration

variable [BEq κ]

theorem yields_registerAt {k : ℕ} {r : Registry ℕ κ} :
    (p.registerAt (.ofOwner p.owner k) k).Yields s r t ↔
      p.supports (p.owner k) .register = true ∧ (p.register (p.owner k) k).Yields s ⟨⟩ t
        ∧ r = .ofOwner p.owner (k + 1) := by
  unfold registerAt
  simp only [Action.yields_bind, yields_require, Registry.register_ofOwner, Action.yields_pure]
  constructor
  · rintro ⟨_, _, ⟨hs, rfl⟩, _, _, hr, rfl, rfl⟩
    exact ⟨hs, hr, rfl⟩
  · rintro ⟨hs, hr, rfl⟩
    exact ⟨⟨⟩, s, ⟨hs, rfl⟩, ⟨⟩, t, hr, rfl, rfl⟩

/-- An invariant of the first registrations, which speaks about the number of those made. -/
theorem Yields.registrations (P : ℕ → σ → Prop) (start : P 0 s)
    (step : ∀ k < p.count, ∀ s t, P k s → (p.register (p.owner k) k).Yields s ⟨⟩ t → P (k + 1) t)
    {k : ℕ} (hk : k ≤ p.count) {r : Registry ℕ κ}
    (h : ((List.range k).foldlM p.registerAt .empty).Yields s r t) :
    r = .ofOwner p.owner k ∧ P k t := by
  induction k generalizing r t with
  | zero =>
    obtain ⟨rfl, rfl⟩ := Action.yields_pure.mp h
    exact ⟨rfl, start⟩
  | succ k ih =>
    rw [List.range_succ, List.foldlM_append] at h
    obtain ⟨r', s', hr', h⟩ := Action.yields_bind.mp h
    obtain ⟨rfl, hP⟩ := ih (Nat.le_of_succ_le hk) hr'
    obtain ⟨r'', t', hlast, hpure⟩ := Action.yields_bind.mp h
    obtain ⟨rfl, rfl⟩ := Action.yields_pure.mp hpure
    obtain ⟨-, hreg, rfl⟩ := yields_registerAt.mp hlast
    exact ⟨rfl, step k hk s' t' hP hreg⟩

/-- An invariant of the registrations. -/
theorem Yields.registerAll (P : ℕ → σ → Prop) {r : Registry ℕ κ} (h : p.registerAll.Yields s r u)
    (start : P 0 s) (step : ∀ k < p.count, ∀ s t, P k s →
      (p.register (p.owner k) k).Yields s ⟨⟩ t → P (k + 1) t) :
    r = .ofOwner p.owner p.count ∧ P p.count u := by
  obtain ⟨r', t, hr, h⟩ := Action.yields_bind.mp h
  obtain ⟨rfl, hP⟩ := Yields.registrations P start step (Nat.le_refl _) hr
  simp only [Registry.missing_ofOwner] at h
  obtain ⟨rfl, rfl⟩ := Action.yields_pure.mp h
  exact ⟨rfl, hP⟩

/-- All constraints are registered if the invariant lets each registration succeed. -/
theorem exists_registerAll (P : ℕ → σ → Prop) (start : P 0 s)
    (step : ∀ k < p.count, ∀ s, P k s → p.supports (p.owner k) .register = true
      ∧ ∃ t, (p.register (p.owner k) k).Yields s ⟨⟩ t ∧ P (k + 1) t) :
    ∃ t, p.registerAll.Yields s (.ofOwner p.owner p.count) t ∧ P p.count t := by
  have hfold : ∀ k ≤ p.count, ∃ t, ((List.range k).foldlM p.registerAt .empty).Yields s
      (.ofOwner p.owner k) t ∧ P k t := by
    intro k
    induction k with
    | zero => exact fun _ => ⟨s, Action.yields_pure.mpr ⟨rfl, rfl⟩, start⟩
    | succ k ih =>
      intro hk
      obtain ⟨t, ht, hP⟩ := ih (Nat.le_of_succ_le hk)
      obtain ⟨hs, u, hu, hPu⟩ := step k hk t hP
      refine ⟨u, ?_, hPu⟩
      rw [List.range_succ, List.foldlM_append]
      exact Action.yields_bind.mpr ⟨_, t, ht, Action.yields_bind.mpr
        ⟨_, u, yields_registerAt.mpr ⟨hs, hu, rfl⟩, Action.yields_pure.mpr ⟨rfl, rfl⟩⟩⟩
  obtain ⟨t, ht, hP⟩ := hfold p.count (Nat.le_refl _)
  refine ⟨t, Action.yields_bind.mpr ⟨_, t, ht, ?_⟩, hP⟩
  simp only [Registry.missing_ofOwner]
  exact Action.yields_pure.mpr ⟨rfl, rfl⟩

end Registration

/-! ## Preparation -/

section Preparation

variable [BEq κ]

/-- An invariant of the setups, which speaks about the sets already set up. -/
theorem Yields.setupAll (P : List κ → σ → Prop) {r : Registry ℕ κ} {v : Unit}
    (h : (p.setupAll r).Yields s v u) (start : P [] s)
    (step : ∀ done k s t, done ++ [k] <+: r.owners → P done s → (p.setup k).Yields s ⟨⟩ t →
      P (done ++ [k]) t) : P r.owners u :=
  Action.Yields.forM P h start fun done k s t hinit hP h => by
    obtain ⟨_, _, hreq, h⟩ := Action.yields_bind.mp h
    obtain ⟨-, rfl⟩ := yields_require.mp hreq
    exact step done k _ t hinit hP h

theorem exists_setupAll (P : List κ → σ → Prop) {r : Registry ℕ κ} (start : P [] s)
    (step : ∀ done k s, done ++ [k] <+: r.owners → P done s → p.supports k .setup = true
      ∧ ∃ t, (p.setup k).Yields s ⟨⟩ t ∧ P (done ++ [k]) t) :
    ∃ t, (p.setupAll r).Yields s ⟨⟩ t ∧ P r.owners t :=
  Action.exists_yields_forM P start fun done k s hinit hP => by
    obtain ⟨hs, t, ht, hPt⟩ := step done k s hinit hP
    exact ⟨t, Action.yields_bind.mpr ⟨⟨⟩, s, yields_require.mpr ⟨hs, rfl⟩, ht⟩, hPt⟩

variable [Scalar α]

/-- The reformulation by a set that declares it, and the division of its constraints. -/
theorem yields_reformSet {r : Registry ℕ κ} {k : κ} (hs : p.supports k .reform = true)
    {out : ℕ × List ℕ} : (p.reformSet r k).Yields s out t ↔ ∃ report,
      (p.reform k (r.indices k)).Yields s report t
        ∧ Report.partition (p.kindName k) report (r.indices k) = .ok out := by
  unfold reformSet
  simp only [hs, if_true, Action.yields_bind, Action.yields_lift]
  constructor
  · rintro ⟨report, _, hr, hp, rfl⟩
    exact ⟨report, hr, hp⟩
  · rintro ⟨report, hr, hp⟩
    exact ⟨report, t, hr, hp, rfl⟩

/-- An invariant of the reformulations, which speaks about what remains of the sets that had
their turn. -/
theorem Yields.reformAll (P : List κ → List (κ × List ℕ) → σ → Prop) {r : Registry ℕ κ} {n : ℕ}
    {remaining : List (κ × List ℕ)} (h : (p.reformAll r).Yields s (n, remaining) u)
    (start : P [] [] s)
    (step : ∀ done out k s t c rest, k ∈ r.owners → P done out s →
      (p.reformSet r k).Yields s (c, rest) t → P (done ++ [k]) (out ++ [(k, rest)]) t) :
    P r.owners remaining u := by
  obtain ⟨parts, _, hparts, h⟩ := Action.yields_bind.mp h
  obtain ⟨heq, rfl⟩ := Action.yields_pure.mp h
  obtain ⟨-, rfl⟩ := Prod.mk.inj heq
  refine Action.Yields.mapM (fun done out s => P done (out.map Prod.snd) s) hparts start ?_
  intro done out k s q t hinit hP hy
  obtain ⟨⟨c, rest⟩, _, hset, hy⟩ := Action.yields_bind.mp hy
  obtain ⟨rfl, rfl⟩ := Action.yields_pure.mp hy
  rw [List.map_append]
  exact step done _ k s _ c rest (hinit.subset (by simp)) hP hset

theorem exists_reformAll (P : List κ → List (κ × List ℕ) → σ → Prop) {r : Registry ℕ κ}
    (start : P [] [] s)
    (step : ∀ done out k s, k ∈ r.owners → P done out s →
      ∃ c rest t, (p.reformSet r k).Yields s (c, rest) t ∧ P (done ++ [k]) (out ++ [(k, rest)]) t) :
    ∃ n remaining t, (p.reformAll r).Yields s (n, remaining) t ∧ P r.owners remaining t := by
  obtain ⟨parts, t, hparts, hP⟩ := Action.exists_yields_mapM (l := r.owners)
    (f := fun k => do
      let part ← p.reformSet r k
      return (part.1, k, part.2))
    (fun done (out : List (ℕ × κ × List ℕ)) s => P done (out.map Prod.snd) s) start (by
      intro done out k s hinit hP
      obtain ⟨c, rest, t, hset, hPt⟩ := step done _ k s (hinit.subset (by simp)) hP
      refine ⟨(c, k, rest), t, Action.yields_bind.mpr ⟨(c, rest), t, hset,
        Action.yields_pure.mpr ⟨rfl, rfl⟩⟩, ?_⟩
      simpa using hPt)
  exact ⟨_, _, t, Action.yields_bind.mpr ⟨parts, t, hparts, Action.yields_pure.mpr ⟨rfl, rfl⟩⟩, hP⟩

/-- The parts of a preparation. -/
theorem yields_prepare {r : Registry ℕ κ} {out : ℕ × List (κ × List ℕ)} :
    (p.prepare r).Yields s out u ↔ ∃ t t', (p.setupAll r).Yields s ⟨⟩ t ∧ p.start.Yields t ⟨⟩ t'
      ∧ (p.reformAll r).Yields t' out u := by
  unfold prepare
  simp only [Action.yields_bind]
  constructor
  · rintro ⟨_, t, ht, _, t', ht', h⟩
    exact ⟨t, t', ht, ht', h⟩
  · rintro ⟨t, t', ht, ht', h⟩
    exact ⟨⟨⟩, t, ht, ⟨⟩, t', ht', h⟩

end Preparation

/-! ## Rounds -/

variable {remaining : List (κ × List ℕ)}

/-- The cuts of a round, if making cuts leaves the state as it is. -/
theorem yields_gatherCuts (hcut : ∀ q ∈ remaining, q.2 ≠ [] → ∀ cs t,
      (p.cut q.1 q.2).Yields s cs t → t = s) {cuts : List δ}
    (h : (p.gatherCuts remaining).Yields s cuts t) : t = s
      ∧ (∀ q ∈ remaining, q.2 ≠ [] → ∃ cs, (p.cut q.1 q.2).Yields s cs s ∧ ∀ c ∈ cs, c ∈ cuts)
      ∧ ∀ c ∈ cuts, ∃ q ∈ remaining, q.2 ≠ [] ∧ ∃ cs, (p.cut q.1 q.2).Yields s cs s ∧ c ∈ cs := by
  obtain ⟨found, _, hfound, h⟩ := Action.yields_bind.mp h
  obtain ⟨rfl, rfl⟩ := Action.yields_pure.mp h
  refine Action.Yields.mapM (fun done out t => t = s
    ∧ (∀ q ∈ done, q.2 ≠ [] → ∃ cs, (p.cut q.1 q.2).Yields s cs s ∧ ∀ c ∈ cs, c ∈ out.flatten)
    ∧ ∀ c ∈ out.flatten, ∃ q ∈ remaining, q.2 ≠ [] ∧ ∃ cs, (p.cut q.1 q.2).Yields s cs s ∧ c ∈ cs)
    hfound ⟨rfl, by simp, by simp⟩ ?_
  rintro done out ⟨k, is⟩ _ cs u hinit ⟨rfl, hdone, hout⟩ hy
  have hmem : (k, is) ∈ remaining := hinit.subset (by simp)
  cases is with
  | nil =>
    obtain ⟨rfl, rfl⟩ := Action.yields_pure.mp hy
    refine ⟨rfl, fun q hq hne => ?_, by simpa using hout⟩
    rcases List.mem_append.mp hq with hq | hq
    · simpa using hdone q hq hne
    · obtain rfl := List.mem_singleton.mp hq
      exact absurd rfl hne
  | cons i is =>
    obtain ⟨_, _, hreq, hy⟩ := Action.yields_bind.mp hy
    obtain ⟨-, rfl⟩ := yields_require.mp hreq
    obtain rfl := hcut _ hmem (by simp) cs u hy
    refine ⟨rfl, fun q hq hne => ?_, fun c hc => ?_⟩
    · rcases List.mem_append.mp hq with hq | hq
      · obtain ⟨cs', hcs', hsub⟩ := hdone q hq hne
        exact ⟨cs', hcs', fun c hc => by simp [hsub c hc]⟩
      · obtain rfl := List.mem_singleton.mp hq
        exact ⟨cs, hy, fun c hc => by simp [hc]⟩
    · rw [List.flatten_append, List.mem_append] at hc
      rcases hc with hc | hc
      · exact hout c hc
      · exact ⟨_, hmem, by simp, cs, hy, by simpa using hc⟩

/-- A solve of the master that confirms an optimum, and the cuts added after it. -/
def Round (p : Participants α σ κ δ τ) (remaining : List (κ × List ℕ)) (s t : σ) : Prop :=
  ∃ status s' cuts s'', p.solve.Yields s status s' ∧ status.isConfirmed = true
    ∧ (p.gatherCuts remaining).Yields s' cuts s'' ∧ cuts ≠ []
    ∧ (p.addCuts cuts).Yields s'' ⟨⟩ t

/-- The state after a number of rounds. -/
inductive Reaches (p : Participants α σ κ δ τ) (remaining : List (κ × List ℕ)) (s : σ) :
    ℕ → σ → Prop
  | refl : Reaches p remaining s 0 s
  | round {k : ℕ} {t u : σ} : Reaches p remaining s k t → p.Round remaining t u →
    Reaches p remaining s (k + 1) u

theorem Reaches.head {k : ℕ} (hround : p.Round remaining s t)
    (h : p.Reaches remaining t k u) : p.Reaches remaining s (k + 1) u := by
  induction h with
  | refl => exact .round .refl hround
  | round _ hlast ih => exact .round ih hlast

/-- One turn of the rounds. It is the last one if no optimum is confirmed, if there are no cuts, or if
there are some but no round is left. Otherwise they are added, and the next turn follows. -/
theorem cases_cutLoop {left iterations total : ℕ} {r : Rounds}
    (h : (p.cutLoop remaining left iterations total).Yields s r u) :
    ∃ status t, p.solve.Yields s status t
      ∧ ((status.isConfirmed = false ∧ r = ⟨status, iterations, total⟩ ∧ u = t)
        ∨ status.isConfirmed = true ∧ ∃ cuts t', (p.gatherCuts remaining).Yields t cuts t'
          ∧ ((cuts = [] ∧ r = ⟨status, iterations, total⟩ ∧ u = t')
            ∨ (cuts ≠ [] ∧ left = 0 ∧ r = ⟨.iterationLimit, iterations, total⟩ ∧ u = t')
            ∨ (cuts ≠ [] ∧ ∃ rest v, left = rest + 1 ∧ (p.addCuts cuts).Yields t' ⟨⟩ v
              ∧ (p.cutLoop remaining rest (iterations + 1) (total + cuts.length)).Yields v r u))) := by
  rw [cutLoop] at h
  obtain ⟨status, t, hsolve, h⟩ := Action.yields_bind.mp h
  refine ⟨status, t, hsolve, ?_⟩
  cases hstatus : status.isConfirmed with
  | false =>
    simp only [hstatus] at h
    obtain ⟨rfl, rfl⟩ := Action.yields_pure.mp h
    exact .inl ⟨rfl, rfl, rfl⟩
  | true =>
    simp only [hstatus] at h
    obtain ⟨cuts, t', hcuts, h⟩ := Action.yields_bind.mp h
    refine .inr ⟨rfl, cuts, t', hcuts, ?_⟩
    cases cuts with
    | nil =>
      obtain ⟨rfl, rfl⟩ := Action.yields_pure.mp h
      exact .inl ⟨rfl, rfl, rfl⟩
    | cons c cs =>
      cases left with
      | zero =>
        obtain ⟨rfl, rfl⟩ := Action.yields_pure.mp h
        exact .inr (.inl ⟨by simp, rfl, rfl, rfl⟩)
      | succ left =>
        obtain ⟨_, v, hadd, h⟩ := Action.yields_bind.mp h
        exact .inr (.inr ⟨by simp, left, v, rfl, hadd, h⟩)

/-- How the rounds of cuts end: with a solve that confirms no optimum, with one after which there
are no cuts, or with cuts that may not be added any more. -/
theorem yields_cutLoop {left iterations total : ℕ} {r : Rounds}
    (h : (p.cutLoop remaining left iterations total).Yields s r u) :
    ∃ k t t' status, p.Reaches remaining s k t ∧ k ≤ left ∧ r.iterations = iterations + k
      ∧ p.solve.Yields t status t'
      ∧ ((status.isConfirmed = false ∧ r.status = status ∧ u = t')
        ∨ (status.isConfirmed = true ∧ r.status = status ∧ (p.gatherCuts remaining).Yields t' [] u)
        ∨ (status.isConfirmed = true ∧ r.status = .iterationLimit ∧ k = left
          ∧ ∃ cuts ≠ [], (p.gatherCuts remaining).Yields t' cuts u)) := by
  induction left using Nat.strongRecOn generalizing s iterations total with
  | ind left ih =>
    obtain ⟨status, t, hsolve, ⟨hno, rfl, rfl⟩ | ⟨hyes, cuts, t', hcuts, hturn⟩⟩ := cases_cutLoop h
    · exact ⟨0, s, u, status, .refl, Nat.zero_le _, rfl, hsolve, .inl ⟨hno, rfl, rfl⟩⟩
    · obtain ⟨rfl, rfl, rfl⟩ | ⟨hne, rfl, rfl, rfl⟩ | ⟨hne, rest, v, rfl, hadd, hnext⟩ := hturn
      · exact ⟨0, s, t, status, .refl, Nat.zero_le _, rfl, hsolve, .inr (.inl ⟨hyes, rfl, hcuts⟩)⟩
      · exact ⟨0, s, t, status, .refl, Nat.le_refl _, rfl, hsolve,
          .inr (.inr ⟨hyes, rfl, rfl, cuts, hne, hcuts⟩)⟩
      · obtain ⟨k, w, w', status', hreach, hk, hiter, hsolve', hend⟩ :=
          ih rest (Nat.lt_succ_self rest) hnext
        have hround : p.Round remaining s v :=
          ⟨status, t, cuts, t', hsolve, hyes, hcuts, hne, hadd⟩
        refine ⟨k + 1, w, w', status', hreach.head hround, Nat.succ_le_succ hk, ?_, hsolve', ?_⟩
        · rw [hiter, Nat.add_right_comm, Nat.add_assoc]
        · exact hend.imp_right (.imp_right fun ⟨h1, h2, h3, h4⟩ => ⟨h1, h2, by rw [h3], h4⟩)

/-- The parts of a run: registration, preparation, rounds, and scenarios if they are reported. -/
theorem yields_resolve [BEq κ] [Scalar α] {limit : ℕ} {report : Bool} {g g' : Progress σ κ}
    {res : Resolved τ} (h : (p.resolve limit report).Yields g res g') :
    ∃ r s' n remaining t u, p.registerAll.Yields g.world r s'
      ∧ (p.prepare r).Yields s' (n, remaining) t
      ∧ (p.cutLoop remaining limit 0 0).Yields t res.rounds u
      ∧ (g'.world = u ∨ ∃ found, (p.collectScenarios remaining).Yields u found g'.world) := by
  obtain ⟨r, _, hon, h⟩ := Action.yields_bind.mp h
  obtain ⟨s', hreg, rfl⟩ := Action.yields_onState.mp hon
  obtain ⟨_, _, hmod, h⟩ := Action.yields_bind.mp h
  obtain rfl := Action.yields_modify.mp hmod
  obtain ⟨v, hrest, rfl⟩ := Action.yields_onState.mp h
  obtain ⟨⟨n, remaining⟩, t, hprep, h⟩ := Action.yields_bind.mp hrest
  obtain ⟨rounds, u, hloop, h⟩ := Action.yields_bind.mp h
  dsimp only at h
  split_ifs at h
  · obtain ⟨found, w, hfound, h⟩ := Action.yields_bind.mp h
    obtain ⟨rfl, rfl⟩ := Action.yields_pure.mp h
    exact ⟨r, s', n, remaining, t, u, hreg, hprep, hloop, .inr ⟨found, hfound⟩⟩
  · obtain ⟨_, _, hnone, h⟩ := Action.yields_bind.mp h
    obtain ⟨-, rfl⟩ := Action.yields_pure.mp hnone
    obtain ⟨rfl, rfl⟩ := Action.yields_pure.mp h
    exact ⟨r, s', n, remaining, t, _, hreg, hprep, hloop, .inl rfl⟩

end Participants

end RobustOpt
