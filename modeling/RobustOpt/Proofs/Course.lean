import Mathlib.Algebra.GroupWithZero.Nat
import RobustOpt.Proofs.Trace

/-!
# The course of a resolution

The calls of a resolution follow one order, whatever the participants answer. Constraints are
registered in order, every set is set up once, a new master is started, every set that declares it
reformulates, rounds of a solve and of cuts follow each other, and scenarios come last. A run that
fails has made the first calls of such a course, and fails for the last of them, for its answer, or
for a phase that the set next in turn does not declare.

## Main definitions

* `Participants.Exchange`, `Participants.Loop`: the answers in a round, and in all rounds.
* `Participants.Course`: the answers of the participants from the reformulations on.
* `Participants.Course.events`: all calls of a course, with their answers.

## Main statements

* `Participants.resolve_in_order`: what a resolution calls, in which order.
-/

namespace RobustOpt

theorem Registry.owners_ofOwner {κ : Type} [BEq κ] (owner : ℕ → κ) (k : ℕ) :
    (ofOwner owner k).owners = firsts ((List.range k).map owner) := by
  simp [owners, ofOwner, Function.comp_def]

/-- A set that reports nothing has all its constraints left. -/
theorem Report.partition_absent {α : Type} [Scalar α] (name : String) (offered : List ℕ) :
    partition name (.absent : Literal α) offered = .ok (0, offered) := by
  simp [partition, covered, bind, Except.bind, pure, Except.pure]

namespace Participants

variable {α σ κ δ τ : Type}

/-! ## Rounds -/

/-- A round: the status of a solve of the master, and the cuts of each set after it. -/
structure Exchange (κ δ : Type) where
  status : Status
  cuts : κ → List δ

/-- The rounds whose cuts were added, and the one that ended the loop. -/
structure Loop (κ δ : Type) where
  rounds : List (Exchange κ δ)
  last : Exchange κ δ

/-- The sets that have constraints left. -/
def busy (ks : List κ) (rest : κ → List ℕ) : List κ := ks.filter fun k => !(rest k).isEmpty

section Rounds

variable (ks : List κ) (rest : κ → List ℕ)

/-- The cuts of a round, set by set. There are none unless the solve confirms an optimum. -/
def Exchange.found (x : Exchange κ δ) : List δ :=
  if x.status.isConfirmed then (busy ks rest).flatMap x.cuts else []

/-- A round solves the master and, only if this confirms an optimum, asks every set with
constraints left for cuts. -/
def Exchange.events (x : Exchange κ δ) : List (Event α κ δ τ) :=
  ⟨.solve, some (.status x.status)⟩ ::
    if x.status.isConfirmed then
      (busy ks rest).map fun k => ⟨.cut k (rest k), some (.cuts (x.cuts k))⟩
    else []

/-- The cuts that were added, in the order in which they were made. -/
def Loop.added (l : Loop κ δ) : List δ := l.rounds.flatMap fun x => x.found ks rest

/-- The status of the last solve, unless there were cuts after it. -/
def Loop.status (l : Loop κ δ) : Status :=
  if (l.last.found ks rest).isEmpty then l.last.status else .iterationLimit

def Loop.events (l : Loop κ δ) : List (Event α κ δ τ) :=
  (l.rounds.flatMap fun x => x.events ks rest ++ [⟨.add (x.found ks rest), some .done⟩])
    ++ l.last.events ks rest

/-- Rounds go on as long as there are cuts and the limit allows. -/
structure Loop.Follows (l : Loop κ δ) (limit : ℕ) : Prop where
  length_le : l.rounds.length ≤ limit
  found : ∀ x ∈ l.rounds, x.found ks rest ≠ []
  exhausted : l.last.found ks rest ≠ [] → l.rounds.length = limit

variable {ks rest}

/-- A round has no cuts if it asks for none, or if no set returns any. -/
theorem Exchange.found_eq_nil_iff {x : Exchange κ δ} :
    x.found ks rest = [] ↔ x.status.isConfirmed = false ∨ ∀ k ∈ busy ks rest, x.cuts k = [] := by
  unfold found
  split_ifs with hconfirmed <;> simp [hconfirmed]

/-- A loop that ends with its first round. -/
theorem Loop.follows_nil {x : Exchange κ δ} {limit : ℕ} (h : x.found ks rest ≠ [] → limit = 0) :
    (Loop.mk [] x).Follows ks rest limit :=
  ⟨Nat.zero_le _, by simp, fun hfound => (h hfound).symm⟩

theorem Loop.Follows.cons {x : Exchange κ δ} {l : Loop κ δ} {limit : ℕ}
    (hfound : x.found ks rest ≠ []) (h : l.Follows ks rest limit) :
    (Loop.mk (x :: l.rounds) l.last).Follows ks rest (limit + 1) where
  length_le := Nat.succ_le_succ h.length_le
  found := List.forall_mem_cons.mpr ⟨hfound, h.found⟩
  exhausted hlast := congrArg (· + 1) (h.exhausted hlast)

theorem Loop.status_of_found_eq_nil {l : Loop κ δ} (h : l.last.found ks rest = []) :
    l.status ks rest = l.last.status := by
  simp [Loop.status, h]

theorem Loop.status_of_found_ne_nil {l : Loop κ δ} (h : l.last.found ks rest ≠ []) :
    l.status ks rest = .iterationLimit := by
  simp [Loop.status, h]

end Rounds

/-! ## Courses -/

/-- The answers of the participants from the reformulations on. -/
structure Course (α κ δ τ : Type) where
  /-- The reports of the sets that reformulate. -/
  reports : κ → Literal α
  /-- The number of constraints that each set covered. -/
  covered : κ → ℕ
  /-- The constraints that each set has left. -/
  rest : κ → List ℕ
  loop : Loop κ δ
  scenarios : κ → List τ

section Courses

variable [DecidableEq κ] (p : Participants α σ κ δ τ)

/-- The sets that own constraints, in the order of their first one. -/
def owners : List κ := Registry.firsts ((List.range p.count).map p.owner)

/-- The constraints of a set, in increasing order. -/
def owned (k : κ) : List ℕ := (List.range p.count).filter fun i => p.owner i == k

/-- The registry once all constraints are registered. -/
def registry : Registry ℕ κ := .ofOwner p.owner p.count

theorem owners_registry : p.registry.owners = p.owners := Registry.owners_ofOwner _ _

theorem indices_registry (k : κ) : p.registry.indices k = p.owned k :=
  Registry.indices_ofOwner _ _ _

theorem nodup_owners : p.owners.Nodup := Registry.nodup_firsts _

theorem mem_owners {k : κ} : k ∈ p.owners ↔ ∃ i < p.count, p.owner i = k := by
  simp [owners, Registry.mem_firsts]

def registrations : List (Event α κ δ τ) :=
  (List.range p.count).map fun i => ⟨.register (p.owner i) i, some .done⟩

def setups : List (Event α κ δ τ) := p.owners.map fun k => ⟨.setup k, some .done⟩

variable [Scalar α]

/-- A set covers what its report stands for, and nothing if it does not reformulate. -/
def Divides (k : κ) (report : Literal α) (covered : ℕ) (rest : List ℕ) : Prop :=
  if p.supports k .reform then
    Report.partition (p.kindName k) report (p.owned k) = .ok (covered, rest)
  else covered = 0 ∧ rest = p.owned k

variable (c : Course α κ δ τ)

/-- Scenarios are collected at a confirmed optimum, if they were asked for. -/
def Course.reported (report : Bool) : Bool :=
  report && (c.loop.status p.owners c.rest).isConfirmed

def Course.reformulations : List (Event α κ δ τ) :=
  (p.owners.filter fun k => p.supports k .reform).map fun k =>
    ⟨.reform k (p.owned k), some (.report (c.reports k))⟩

def Course.collections (report : Bool) : List (Event α κ δ τ) :=
  if c.reported p report then
    (busy p.owners c.rest).map fun k =>
      ⟨.scenario k (c.rest k), some (.scenarios (c.scenarios k))⟩
  else []

/-- All calls of a course, with their answers. -/
def Course.events (report : Bool) : List (Event α κ δ τ) :=
  p.registrations ++ p.setups ++ [⟨.start, some .done⟩] ++ c.reformulations p
    ++ c.loop.events p.owners c.rest ++ c.collections p report

/-- The answers are acceptable and continue the resolution as they should. -/
structure Course.Follows (limit : ℕ) (report : Bool) : Prop where
  divides : ∀ k ∈ p.owners, p.Divides k (c.reports k) (c.covered k) (c.rest k)
  loop : c.loop.Follows p.owners c.rest limit
  scenarios : c.reported p report = true → ∀ k ∈ busy p.owners c.rest,
    (c.scenarios k).length = (c.rest k).length

/-- What a resolution answers at the end of a course. -/
def Course.resolved (report : Bool) : Resolved τ where
  rounds := ⟨c.loop.status p.owners c.rest, c.loop.rounds.length,
    (c.loop.added p.owners c.rest).length⟩
  reformulated := (p.owners.map c.covered).sum
  scenarios := if c.reported p report then
    (busy p.owners c.rest).flatMap fun k => (c.rest k).zip (c.scenarios k) else []
  scenariosReported := c.reported p report

end Courses

/-! ## The calls of each part -/

section Parts

variable [Scalar α] [DecidableEq κ] {p : Participants α σ κ δ τ}

theorem traces_registerAll : Traces p p.traced.registerAll p.registerAll fun r es =>
    r = p.registry ∧ es = p.registrations := by
  have hfold : ∀ n, Traces p ((List.range n).foldlM p.traced.registerAt .empty)
      ((List.range n).foldlM p.registerAt .empty) fun r es => r = .ofOwner p.owner n
        ∧ es = (List.range n).map fun i => ⟨.register (p.owner i) i, some .done⟩ := by
    intro n
    induction n with
    | zero => exact Traces.pure ⟨rfl, rfl⟩
    | succ n ih =>
      simp only [List.range_succ, List.foldlM_append]
      refine ih.bind ?_
      rintro _ _ ⟨rfl, rfl⟩
      simp only [List.foldlM_cons, List.foldlM_nil, bind_pure]
      refine Traces.require (.register (p.owner n) n) rfl
        ⟨_, some .done, [], rfl, by simp⟩ fun hregister => ?_
      refine (Traces.noting (permits_of_supports rfl hregister) rfl ⟨⟩).bind ?_
      rintro _ _ rfl
      simp only [traced_owner, Registry.register_ofOwner]
      exact Traces.pure ⟨rfl, by simp⟩
  refine (hfold p.count).bind ?_
  rintro _ _ ⟨rfl, rfl⟩
  simp only [traced_count, Registry.missing_ofOwner]
  exact Traces.pure ⟨rfl, List.append_nil _⟩

theorem traces_setupAll : Traces p (p.traced.setupAll p.registry) (p.setupAll p.registry)
    fun _ es => es = p.setups := by
  unfold setupAll setups
  rw [owners_registry]
  induction p.owners with
  | nil => exact Traces.pure rfl
  | cons k ks ih =>
    refine Traces.bind (Traces.require (.setup k) rfl ⟨⟨⟩, _, [], rfl⟩ fun hsetup =>
      Traces.noting (permits_of_supports rfl hsetup) rfl ⟨⟩) ?_
    rintro _ _ rfl
    exact ih.mono fun _ es hes => by rw [hes]; rfl

omit [DecidableEq κ] in
theorem flatMap_filter {β : Type} (ks : List κ) (q : κ → Bool) (f : κ → List β) :
    (ks.filter q).flatMap f = ks.flatMap fun k => if q k then f k else [] := by
  induction ks with
  | nil => rfl
  | cons k ks ih =>
    rw [List.flatMap_cons, ← ih, List.filter_cons]
    cases q k <;> simp

theorem traces_gatherCuts {ks : List κ} (hks : ks.Nodup) (rest : κ → List ℕ) :
    Traces p (p.traced.gatherCuts (ks.map fun k => (k, rest k)))
      (p.gatherCuts (ks.map fun k => (k, rest k))) fun cuts es => ∃ c : κ → List δ,
        cuts = (busy ks rest).flatMap c
          ∧ es = (busy ks rest).map fun k => ⟨.cut k (rest k), some (.cuts (c k))⟩ := by
  unfold gatherCuts
  simp only [List.mapM_map]
  refine Traces.bind (Traces.mapM hks (m := fun _ _ => True)
    (o := fun k (cs : List δ) => if !(rest k).isEmpty then cs else [])
    (e := fun k cs => if !(rest k).isEmpty then [⟨.cut k (rest k), some (.cuts cs)⟩] else [])
    fun k _ => ?_) ?_
  · cases hk : (rest k).isEmpty with
    | true =>
      simp only [Function.comp_apply, hk, if_true]
      exact Traces.pure ⟨[], trivial, rfl, rfl⟩
    | false =>
      simp only [Function.comp_apply, hk]
      refine Traces.require (.cut k (rest k)) rfl ⟨[], _, [], [], trivial, rfl, rfl⟩
        fun hcut => ?_
      exact (Traces.noting (permits_of_supports rfl hcut) rfl []).mono
        fun cs _ hes => ⟨cs, trivial, rfl, hes⟩
  · rintro _ _ ⟨c, -, rfl, rfl⟩
    refine Traces.pure ⟨c, ?_, ?_⟩
    · rw [← List.flatMap_def, busy, flatMap_filter]
    · rw [List.append_nil, busy, List.map_eq_flatMap, flatMap_filter]

theorem traces_collectScenarios [Inhabited τ] {ks : List κ} (hks : ks.Nodup) (rest : κ → List ℕ) :
    Traces p (p.traced.collectScenarios (ks.map fun k => (k, rest k)))
      (p.collectScenarios (ks.map fun k => (k, rest k))) fun found es => ∃ c : κ → List τ,
        (∀ k ∈ busy ks rest, (c k).length = (rest k).length)
          ∧ found = (busy ks rest).flatMap (fun k => (rest k).zip (c k))
          ∧ es = (busy ks rest).map fun k => ⟨.scenario k (rest k), some (.scenarios (c k))⟩ := by
  unfold collectScenarios
  simp only [List.mapM_map]
  refine Traces.bind (Traces.mapM hks
    (m := fun k (found : List τ) => (rest k).isEmpty = false → found.length = (rest k).length)
    (o := fun k found => if !(rest k).isEmpty then (rest k).zip found else [])
    (e := fun k found =>
      if !(rest k).isEmpty then [⟨.scenario k (rest k), some (.scenarios found)⟩] else [])
    fun k _ => ?_) ?_
  · cases hk : (rest k).isEmpty with
    | true =>
      simp only [Function.comp_apply, hk, if_true]
      exact Traces.pure ⟨[], by simp, rfl, rfl⟩
    | false =>
      simp only [Function.comp_apply, hk]
      have hlength : (List.replicate (rest k).length (default : τ)).length = (rest k).length :=
        List.length_replicate
      refine Traces.require (.scenario k (rest k)) rfl
        ⟨_, _, [], _, fun _ => hlength, rfl, rfl⟩ fun hscenario => ?_
      refine Traces.checked (fun found => if found.length ≠ (rest k).length then
          .error (.scenarioCount (p.kindName k) found.length (rest k).length)
          else .ok ((rest k).zip found)) (fun found s => ?_) (fun found s => ?_)
        (permits_of_supports rfl hscenario) rfl (fun found e he => ?_)
        (if_neg (not_not.mpr hlength)) fun found out hout => ?_
      · split_ifs <;> rfl
      · split_ifs <;> rfl
      · split_ifs at he with hfound
        obtain rfl := Except.error.inj he
        exact .scenarios hfound
      · split_ifs at hout with hfound
        obtain rfl := Except.ok.inj hout
        exact ⟨found, fun _ => not_not.mp hfound, rfl, rfl⟩
  · rintro _ _ ⟨c, hc, rfl, rfl⟩
    refine Traces.pure ⟨c, ?_, ?_, ?_⟩
    · intro k hk
      exact hc k (List.mem_of_mem_filter hk) (by simpa using (List.mem_filter.mp hk).2)
    · rw [← List.flatMap_def, busy, flatMap_filter]
    · rw [List.append_nil, busy, List.map_eq_flatMap, flatMap_filter]

/-- A round that goes on with `next` if there are cuts. -/
theorem traces_round {ks : List κ} (hks : ks.Nodup) (rest : κ → List ℕ) {iterations total : ℕ}
    {L : Rounds → List (Event α κ δ τ) → Prop}
    {next' : List δ → Action (σ × List (Event α κ δ τ)) (Fault α) Rounds}
    {next : List δ → Action σ (Fault α) Rounds}
    (hstop : ∀ x : Exchange κ δ, x.found ks rest = [] →
      L ⟨x.status, iterations, total⟩ (x.events ks rest))
    (hnext : ∀ x : Exchange κ δ, x.found ks rest ≠ [] →
      Traces p (next' (x.found ks rest)) (next (x.found ks rest)) fun r es =>
        L r (x.events ks rest ++ es)) :
    Traces p
      (do
        let status ← p.traced.solve
        if !status.isConfirmed then return ⟨status, iterations, total⟩
        let cuts ← p.traced.gatherCuts (ks.map fun k => (k, rest k))
        if cuts.isEmpty then return ⟨status, iterations, total⟩
        next' cuts)
      (do
        let status ← p.solve
        if !status.isConfirmed then return ⟨status, iterations, total⟩
        let cuts ← p.gatherCuts (ks.map fun k => (k, rest k))
        if cuts.isEmpty then return ⟨status, iterations, total⟩
        next cuts) L := by
  refine (Traces.noting (permits_of_phase?_eq_none rfl) rfl .optimal).bind ?_
  rintro status _ rfl
  cases hstatus : status.isConfirmed with
  | false =>
    refine Traces.pure ?_
    have hfound : Exchange.found ks rest ⟨status, fun _ => ([] : List δ)⟩ = [] := by
      simp [Exchange.found, hstatus]
    simpa [Exchange.events, hstatus] using hstop _ hfound
  | true =>
    refine (traces_gatherCuts hks rest).bind ?_
    rintro _ _ ⟨c, rfl, rfl⟩
    have hfound : Exchange.found ks rest ⟨status, c⟩ = (busy ks rest).flatMap c := by
      simp [Exchange.found, hstatus]
    have hevents : (Exchange.events ks rest ⟨status, c⟩ : List (Event α κ δ τ)) =
        ⟨.solve, some (.status status)⟩ :: (busy ks rest).map fun k =>
          ⟨.cut k (rest k), some (.cuts (c k))⟩ := by simp [Exchange.events, hstatus]
    have hstop := hstop ⟨status, c⟩
    have hnext := hnext ⟨status, c⟩
    rw [hfound, hevents] at hstop hnext
    refine Traces.ite (fun hcuts => Traces.pure ?_) fun hcuts => ?_
    · simpa using hstop (List.isEmpty_iff.mp hcuts)
    · exact (hnext fun h => hcuts (List.isEmpty_iff.mpr h)).mono fun r es hes => by simpa using hes

theorem traces_cutLoop {ks : List κ} (hks : ks.Nodup) (rest : κ → List ℕ)
    (left iterations total : ℕ) :
    Traces p (p.traced.cutLoop (ks.map fun k => (k, rest k)) left iterations total)
      (p.cutLoop (ks.map fun k => (k, rest k)) left iterations total) fun r es =>
        ∃ l : Loop κ δ, l.Follows ks rest left ∧ es = l.events ks rest
          ∧ r = ⟨l.status ks rest, iterations + l.rounds.length,
            total + (l.added ks rest).length⟩ := by
  have hstop : ∀ (left iterations total : ℕ) (x : Exchange κ δ), x.found ks rest = [] →
      ∃ l : Loop κ δ, l.Follows ks rest left
        ∧ (x.events ks rest : List (Event α κ δ τ)) = l.events ks rest
        ∧ (⟨x.status, iterations, total⟩ : Rounds) = ⟨l.status ks rest,
          iterations + l.rounds.length, total + (l.added ks rest).length⟩ := fun _ _ _ x hx =>
    ⟨⟨[], x⟩, Loop.follows_nil fun hfound => absurd hx hfound, rfl, by
      rw [Loop.status_of_found_eq_nil hx]; rfl⟩
  induction left generalizing iterations total with
  | zero =>
    refine traces_round hks rest (hstop 0 iterations total) fun x hx => Traces.pure ?_
    refine ⟨⟨[], x⟩, Loop.follows_nil fun _ => rfl, List.append_nil _, ?_⟩
    rw [Loop.status_of_found_ne_nil hx]
    rfl
  | succ left ih =>
    refine traces_round hks rest (hstop _ iterations total) fun x hx => ?_
    refine (Traces.noting (permits_of_phase?_eq_none rfl) rfl ⟨⟩).bind ?_
    rintro _ _ rfl
    refine (ih _ _).mono ?_
    rintro _ _ ⟨l, hl, rfl, rfl⟩
    refine ⟨⟨x :: l.rounds, l.last⟩, hl.cons hx, ?_, ?_⟩
    · simp [Loop.events]
    · simp [Loop.status, Loop.added, Nat.add_assoc, Nat.add_comm 1]

theorem traces_reformSet (k : κ) :
    Traces p (p.traced.reformSet p.registry k) (p.reformSet p.registry k) fun out es =>
      ∃ x : Literal α × ℕ × List ℕ, p.Divides k x.1 x.2.1 x.2.2 ∧ out = x.2
        ∧ es = if p.supports k .reform then [⟨.reform k (p.owned k), some (.report x.1)⟩]
          else [] := by
  unfold reformSet Divides
  rw [indices_registry, traced_supports]
  by_cases hk : p.supports k .reform = true
  · simp only [hk, if_true]
    exact Traces.checked (fun report => Report.partition (p.kindName k) report (p.owned k))
      (fun _ _ => rfl) (fun _ _ => rfl) (permits_of_supports rfl hk) rfl
      (fun _ _ => .report) (Report.partition_absent (p.kindName k) (p.owned k))
      fun report out hout => ⟨(report, out), hout, rfl, rfl⟩
  · simp only [hk]
    exact Traces.pure ⟨(.absent, 0, p.owned k), ⟨rfl, rfl⟩, rfl, rfl⟩

theorem traces_reformAll : Traces p (p.traced.reformAll p.registry) (p.reformAll p.registry)
    fun out es => ∃ (reports : κ → Literal α) (covered : κ → ℕ) (rest : κ → List ℕ),
      (∀ k ∈ p.owners, p.Divides k (reports k) (covered k) (rest k))
        ∧ out = ((p.owners.map covered).sum, p.owners.map fun k => (k, rest k))
        ∧ es = (p.owners.filter fun k => p.supports k .reform).map fun k =>
          ⟨.reform k (p.owned k), some (.report (reports k))⟩ := by
  unfold reformAll
  rw [owners_registry]
  refine Traces.bind (Traces.mapM p.nodup_owners (A := Literal α × ℕ × List ℕ)
    (m := fun k x => p.Divides k x.1 x.2.1 x.2.2) (o := fun k x => (x.2.1, k, x.2.2))
    (e := fun k x =>
      if p.supports k .reform then [⟨.reform k (p.owned k), some (.report x.1)⟩] else [])
    fun k _ => (traces_reformSet k).bind ?_) ?_
  · rintro _ _ ⟨x, hx, rfl, rfl⟩
    exact Traces.pure ⟨x, hx, rfl, List.append_nil _⟩
  · rintro _ _ ⟨x, hx, rfl, rfl⟩
    refine Traces.pure ⟨fun k => (x k).1, fun k => (x k).2.1, fun k => (x k).2.2, hx, ?_, ?_⟩
    · simp only [List.map_map, Function.comp_def, List.sum_eq_foldl_nat]
    · rw [List.append_nil, List.map_eq_flatMap, flatMap_filter]

/-- The calls after the registration. -/
theorem traces_resolveRegistered [Inhabited τ] (limit : ℕ) (report : Bool) :
    Traces p (p.traced.resolveRegistered p.registry limit report)
      (p.resolveRegistered p.registry limit report) fun res es => ∃ c : Course α κ δ τ,
        c.Follows p limit report ∧ p.registrations ++ es = c.events p report
          ∧ res = c.resolved p report := by
  have hprepare : Traces p (p.traced.prepare p.registry) (p.prepare p.registry) fun out es =>
      ∃ (reports : κ → Literal α) (covered : κ → ℕ) (rest : κ → List ℕ),
        (∀ k ∈ p.owners, p.Divides k (reports k) (covered k) (rest k))
          ∧ out = ((p.owners.map covered).sum, p.owners.map fun k => (k, rest k))
          ∧ es = p.setups ++ [⟨.start, some .done⟩]
            ++ (p.owners.filter fun k => p.supports k .reform).map fun k =>
              ⟨.reform k (p.owned k), some (.report (reports k))⟩ := by
    unfold prepare
    refine traces_setupAll.bind ?_
    rintro _ _ rfl
    refine (Traces.noting (permits_of_phase?_eq_none rfl) rfl ⟨⟩).bind ?_
    rintro _ _ rfl
    refine traces_reformAll.mono ?_
    rintro _ _ ⟨reports, covered, rest, hdivides, rfl, rfl⟩
    exact ⟨reports, covered, rest, hdivides, rfl, by rw [List.append_assoc]⟩
  unfold resolveRegistered
  refine hprepare.bind ?_
  rintro _ _ ⟨reports, covered, rest, hdivides, rfl, rfl⟩
  refine (traces_cutLoop p.nodup_owners rest limit 0 0).bind ?_
  rintro _ _ ⟨loop, hloop, rfl, rfl⟩
  simp only [Nat.zero_add]
  cases hreported : report && (loop.status p.owners rest).isConfirmed with
  | true =>
    refine (traces_collectScenarios p.nodup_owners rest).bind ?_
    rintro _ _ ⟨scenarios, hlength, rfl, rfl⟩
    refine Traces.pure ⟨⟨reports, covered, rest, loop, scenarios⟩,
      ⟨hdivides, hloop, fun _ => hlength⟩, ?_, ?_⟩
    · simp [Course.events, Course.reformulations, Course.collections, Course.reported, hreported]
    · simp [Course.resolved, Course.reported, hreported]
  | false =>
    refine Traces.pure ⟨⟨reports, covered, rest, loop, fun _ => []⟩, ⟨hdivides, hloop, ?_⟩, ?_, ?_⟩
    · simp [Course.reported, hreported]
    · simp [Course.events, Course.reformulations, Course.collections, Course.reported, hreported]
    · simp [Course.resolved, Course.reported, hreported]

end Parts

/-! ## Whole runs -/

/-- The registrations and what follows them, as one action of the participants. -/
theorem perform_resolve [Scalar α] [BEq κ] (p : Participants α σ κ δ τ) (limit : ℕ) (report : Bool)
    (g : Progress σ κ) : (p.resolve limit report).perform g =
      (((p.registerAll >>= fun r => p.resolveRegistered r limit report).perform g.world).1,
        ⟨((p.registerAll >>= fun r => p.resolveRegistered r limit report).perform g.world).2,
          match (p.registerAll.perform g.world).1 with
          | .ok r => some r
          | .error _ => g.registry⟩) := by
  unfold resolve
  rw [Action.perform_bind, Action.perform_bind]
  simp only [Action.onState, Action.perform_ofFun]
  rcases p.registerAll.perform g.world with ⟨_ | r, s⟩ <;> rfl

/-- Participants that note their calls answer like the plain ones, leave the same state and follow a
course. -/
theorem notes_resolve [Scalar α] [DecidableEq κ] [Inhabited τ] (p : Participants α σ κ δ τ)
    (limit : ℕ) (report : Bool) (g : Progress σ κ) :
    ∃ log : List (Event α κ δ τ),
      (p.traced.resolve limit report).perform (g.noting [])
          = (((p.resolve limit report).perform g).1,
            ((p.resolve limit report).perform g).2.noting log)
        ∧ (∀ e ∈ log, p.Permits e.call)
        ∧ p.Ends (fun res es => ∃ c : Course α κ δ τ, c.Follows p limit report
          ∧ es = c.events p report ∧ res = c.resolved p report)
          ((p.resolve limit report).perform g).2.world ((p.resolve limit report).perform g).1
          log := by
  have hwhole : Traces p
      (p.traced.registerAll >>= fun r => p.traced.resolveRegistered r limit report)
      (p.registerAll >>= fun r => p.resolveRegistered r limit report) fun res es =>
        ∃ c : Course α κ δ τ, c.Follows p limit report ∧ es = c.events p report
          ∧ res = c.resolved p report := by
    refine traces_registerAll.bind ?_
    rintro _ _ ⟨rfl, rfl⟩
    exact traces_resolveRegistered limit report
  obtain ⟨log, hperform, hpermits, hends⟩ := hwhole.notes g.world []
  obtain ⟨_, hregister, -⟩ := (traces_registerAll (p := p)).notes g.world []
  refine ⟨log, ?_, hpermits, ?_⟩
  · rw [perform_resolve, perform_resolve]
    simp only [Progress.noting, hperform, hregister, List.nil_append]
  · rw [perform_resolve]
    exact hends

/-- **The order of a resolution.** If a resolution succeeds, its participants have noted all calls
of a course, with every set that owns constraints in its place, once; if it fails, they have noted
the first calls of one, and the failure comes from the last of these calls, from a check of its
answer, or from the next one, if its set does not declare the phase. No set is called for a phase
that it does not declare. -/
theorem resolve_in_order [Scalar α] [DecidableEq κ] [Inhabited τ] (p : Participants α σ κ δ τ)
    (limit : ℕ) (report : Bool) (g : Progress σ κ) :
    (p.owners.Nodup ∧ ∀ k, k ∈ p.owners ↔ ∃ i < p.count, p.owner i = k)
      ∧ ∃ log : List (Event α κ δ τ),
        (p.traced.resolve limit report).perform (g.noting [])
            = (((p.resolve limit report).perform g).1,
              ((p.resolve limit report).perform g).2.noting log)
          ∧ (∀ e ∈ log, p.Permits e.call)
          ∧ match ((p.resolve limit report).perform g).1 with
            | .ok res => ∃ c : Course α κ δ τ, c.Follows p limit report
                ∧ log = c.events p report ∧ res = c.resolved p report
            | .error e => ∃ c : Course α κ δ τ, c.Follows p limit report
                ∧ CutShort log (c.events p report)
                ∧ p.Origin e ((p.resolve limit report).perform g).2.world log
                  (c.events p report) := by
  refine ⟨⟨p.nodup_owners, fun k => p.mem_owners⟩, ?_⟩
  obtain ⟨log, hperform, hpermits, hends⟩ := p.notes_resolve limit report g
  refine ⟨log, hperform, hpermits, ?_⟩
  cases hresult : ((p.resolve limit report).perform g).1 with
  | ok res =>
    rw [hresult] at hends
    exact hends
  | error e =>
    rw [hresult] at hends
    obtain ⟨_, _, ⟨c, hc, rfl, -⟩, hcut, horigin⟩ := hends
    exact ⟨c, hc, hcut, horigin⟩

end Participants

end RobustOpt
