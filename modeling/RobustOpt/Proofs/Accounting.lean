import Mathlib.Algebra.Order.Floor.Semiring
import Mathlib.Data.Rat.Floor
import RobustOpt.Proofs.Course
import RobustOpt.Proofs.Rounds

/-!
# Accounts of the rounds

The rounds of cuts of a resolution stop when their limit is reached, at the latest: a run makes one
solve of the master more than it adds rounds. What a run reports agrees with what it did: the number
of rounds and of cuts are those that were added to the master, and the reported status tells which
way the rounds ended.

## Main definitions

* `Participants.solves`: the number of solves among noted events.
* `Participants.Grows`: cuts are what changes the constraints of the master.

## Main statements

* `Participants.cutLoop_eq`: the loop compares the rounds so far with the limit.
* `Participants.cutLoop_accounts`: what the rounds report, for a finite limit.
-/

namespace RobustOpt

/-- A finite limit allows for its number of rounds, rounded up. -/
theorem Settings.rounds_eq {α : Type} [Scalar α] {s : Settings α} {q : ℚ}
    (h : s.maxRounds.numeric? = some (.finite q)) : s.rounds = ⌈q⌉₊ := by
  have hceil : q.ceil = ⌈q⌉ :=
    eq_of_forall_ge_iff fun z => Rat.ceil_le_iff.trans Int.ceil_le.symm
  rw [rounds, h, ← Int.ceil_toNat, ← hceil]

namespace Participants

open RobustOpt.Action

variable {α σ κ δ τ : Type}

/-- The loop asks after each round with cuts whether the rounds so far reach the limit. -/
theorem cutLoop_eq (p : Participants α σ κ δ τ) (remaining : List (κ × List ℕ)) (limit : ℚ)
    (iterations total : ℕ) :
    p.cutLoop remaining (⌈limit⌉₊ - iterations) iterations total = (do
      let status ← p.solve
      if !status.isConfirmed then return ⟨status, iterations, total⟩
      let cuts ← p.gatherCuts remaining
      if cuts.isEmpty then return ⟨status, iterations, total⟩
      if limit ≤ iterations then return ⟨.iterationLimit, iterations, total⟩
      p.addCuts cuts
      p.cutLoop remaining (⌈limit⌉₊ - (iterations + 1)) (iterations + 1)
        (total + cuts.length)) := by
  by_cases hlimit : limit ≤ iterations
  · have hleft : ⌈limit⌉₊ - iterations = 0 := Nat.sub_eq_zero_of_le (Nat.ceil_le.mpr hlimit)
    rw [hleft, cutLoop]
    simp only [hlimit, if_true]
  · have hlt : iterations < ⌈limit⌉₊ := Nat.lt_ceil.mpr (not_le.mp hlimit)
    have hleft : ⌈limit⌉₊ - iterations = ⌈limit⌉₊ - (iterations + 1) + 1 := by omega
    rw [hleft, cutLoop]
    simp only [hlimit, if_false]

/-! ## Solves -/

def Call.isSolve : Call κ δ → Bool
  | solve => true
  | _ => false

/-- The number of solves of the master. -/
def solves (es : List (Event α κ δ τ)) : ℕ := es.countP fun e => e.call.isSolve

theorem solves_append (es fs : List (Event α κ δ τ)) : solves (es ++ fs) = solves es + solves fs :=
  List.countP_append

/-- Solves are among the calls that a list which is cut short has in common with the full one. -/
theorem CutShort.solves_le {es full : List (Event α κ δ τ)} (h : CutShort es full) :
    solves es ≤ solves full := by
  have hcalls : ∀ es : List (Event α κ δ τ),
      solves es = (es.map Event.call).countP Call.isSolve := fun es => by
    rw [List.countP_map]
    rfl
  rw [hcalls, hcalls]
  exact h.calls.sublist.countP_le

theorem Exchange.solves_events (ks : List κ) (rest : κ → List ℕ) (x : Exchange κ δ) :
    solves (x.events ks rest : List (Event α κ δ τ)) = 1 := by
  unfold Exchange.events solves
  split_ifs <;> simp [Call.isSolve, List.countP_map, Function.comp_def]

/-- Every round makes one solve. -/
theorem Loop.solves_events (ks : List κ) (rest : κ → List ℕ) (l : Loop κ δ) :
    solves (l.events ks rest : List (Event α κ δ τ)) = l.rounds.length + 1 := by
  rw [Loop.events, solves_append, Exchange.solves_events]
  congr 1
  induction l.rounds with
  | nil => rfl
  | cons x xs ih =>
    rw [List.flatMap_cons, solves_append, ih, solves_append, Exchange.solves_events,
      List.length_cons, Nat.add_comm]
    simp [solves, Call.isSolve]

theorem Loop.Follows.solves_le {ks : List κ} {rest : κ → List ℕ} {l : Loop κ δ} {limit : ℕ}
    (h : l.Follows ks rest limit) :
    solves (l.events ks rest : List (Event α κ δ τ)) ≤ limit + 1 := by
  rw [l.solves_events]
  exact Nat.succ_le_succ h.length_le

/-- A loop makes at most one solve more than the limit, also if it fails. -/
theorem solves_cutLoop_le [Scalar α] [DecidableEq κ] (p : Participants α σ κ δ τ) {ks : List κ}
    (hks : ks.Nodup) (rest : κ → List ℕ) (limit : ℕ) (s : σ) :
    solves ((p.traced.cutLoop (ks.map fun k => (k, rest k)) limit 0 0).perform (s, [])).2.2
      ≤ limit + 1 := by
  obtain ⟨log, hperform, -, hends⟩ :=
    (traces_cutLoop (p := p) hks rest limit 0 0).notes s []
  rw [hperform]
  cases hanswer : ((p.cutLoop (ks.map fun k => (k, rest k)) limit 0 0).perform s).1 with
  | ok r =>
    rw [hanswer] at hends
    obtain ⟨l, hl, rfl, -⟩ := hends
    exact hl.solves_le
  | error fault =>
    rw [hanswer] at hends
    obtain ⟨_, _, ⟨l, hl, rfl, -⟩, hcut, -⟩ := hends
    exact hcut.solves_le.trans hl.solves_le

/-! ## The status at the end -/

section Status

variable {ks : List κ} {rest : κ → List ℕ} {l : Loop κ δ} {limit : ℕ}

theorem Loop.Follows.status_eq_iterationLimit_iff (h : l.Follows ks rest limit)
    (hlast : l.last.status ≠ .iterationLimit) :
    l.status ks rest = .iterationLimit ↔ l.rounds.length = limit ∧ l.last.found ks rest ≠ [] := by
  by_cases hfound : l.last.found ks rest = []
  · rw [Loop.status_of_found_eq_nil hfound]
    exact iff_of_false hlast fun hlimit => hlimit.2 hfound
  · rw [Loop.status_of_found_ne_nil hfound]
    exact iff_of_true rfl ⟨h.exhausted hfound, hfound⟩

theorem Loop.status_of_ne_iterationLimit (h : l.status ks rest ≠ .iterationLimit) :
    l.status ks rest = l.last.status
      ∧ (l.last.status.isConfirmed = false ∨ ∀ k ∈ busy ks rest, l.last.cuts k = []) := by
  have hfound : l.last.found ks rest = [] :=
    not_not.mp fun hfound => h (Loop.status_of_found_ne_nil hfound)
  exact ⟨Loop.status_of_found_eq_nil hfound, Exchange.found_eq_nil_iff.mp hfound⟩

end Status

/-! ## The constraints of the master -/

/-- The cuts that a call has added to the master. -/
def Event.added : Event α κ δ τ → List δ
  | ⟨.add cs, some _⟩ => cs
  | _ => []

theorem Loop.added_events (ks : List κ) (rest : κ → List ℕ) (l : Loop κ δ) :
    (l.events ks rest : List (Event α κ δ τ)).flatMap Event.added = l.added ks rest := by
  have hround : ∀ x : Exchange κ δ,
      (x.events ks rest : List (Event α κ δ τ)).flatMap Event.added = [] := by
    intro x
    unfold Exchange.events
    split_ifs <;> simp [Event.added, List.flatMap_map]
  rw [Loop.events, List.flatMap_append, hround, List.append_nil, Loop.added]
  induction l.rounds with
  | nil => rfl
  | cons x xs ih =>
    rw [List.flatMap_cons, List.flatMap_append, ih, List.flatMap_append, hround]
    simp [Event.added]

/-- Solves and cuts leave the constraints of the master as they are, and cuts are added to them at
the end. -/
structure Grows (p : Participants α σ κ δ τ) (view : σ → List δ) : Prop where
  solve : ∀ s, view (p.solve.perform s).2 = view s
  cut : ∀ k is s, view ((p.cut k is).perform s).2 = view s
  add : ∀ cs s t, (p.addCuts cs).Yields s ⟨⟩ t → view t = view s ++ cs

/-- The master has the constraints it began with and the added cuts. -/
def Holds (view : σ → List δ) (before : List δ) (u : σ × List (Event α κ δ τ)) : Prop :=
  view u.1 = before ++ u.2.flatMap Event.added

variable {p : Participants α σ κ δ τ} {view : σ → List δ} {before : List δ}

theorem keeps_noting_holds {β : Type} {call : Call κ δ} {answer : β → Answer α δ τ}
    {a : Action σ (Fault α) β} (ha : ∀ s, view (a.perform s).2 = view s)
    (hcall : ∀ r : Option (Answer α δ τ), Event.added ⟨call, r⟩ = []) :
    (noting call answer a).Keeps (Holds view before) := by
  rintro ⟨s, log⟩ hs
  show view (a.perform s).2 = before ++ (log ++ [_]).flatMap Event.added
  rw [ha, List.flatMap_append, List.flatMap_singleton, hcall, List.append_nil]
  exact hs

/-- The invariant of a round. -/
theorem Round.holds (hp : p.Grows view) {remaining : List (κ × List ℕ)}
    {u v : σ × List (Event α κ δ τ)} (h : p.traced.Round remaining u v)
    (hu : Holds view before u) : Holds view before v := by
  obtain ⟨status, u₁, cuts, u₂, hsolve, -, hgather, -, hadd⟩ := h
  have h₁ : Holds view before u₁ :=
    (keeps_noting_holds hp.solve fun _ => rfl).yields hsolve hu
  have h₂ : Holds view before u₂ := (keeps_gatherCuts (p := p.traced) remaining fun k is =>
    keeps_noting_holds (hp.cut k is) fun _ => rfl).yields hgather h₁
  obtain ⟨hyields, hlog⟩ := yields_noting hadd
  rw [Holds, hlog, hp.add cuts _ _ hyields, h₂, List.flatMap_append, List.flatMap_singleton,
    List.append_assoc]
  rfl

theorem Reaches.holds (hp : p.Grows view) {remaining : List (κ × List ℕ)}
    {u v : σ × List (Event α κ δ τ)} {k : ℕ} (h : p.traced.Reaches remaining u k v)
    (hu : Holds view before u) : Holds view before v := by
  induction h with
  | refl => exact hu
  | round _ hround ih => exact hround.holds hp ih

/-- The invariant of the loop. -/
theorem holds_of_cutLoop (hp : p.Grows view) {remaining : List (κ × List ℕ)}
    {left iterations total : ℕ} {u v : σ × List (Event α κ δ τ)} {r : Rounds}
    (h : (p.traced.cutLoop remaining left iterations total).Yields u r v)
    (hu : Holds view before u) : Holds view before v := by
  obtain ⟨k, t, t', status, hreach, -, -, hsolve, hend⟩ := yields_cutLoop h
  have ht' : Holds view before t' :=
    (keeps_noting_holds hp.solve fun _ => rfl).yields hsolve (hreach.holds hp hu)
  have hgather : (p.traced.gatherCuts remaining).Keeps (Holds view before) :=
    keeps_gatherCuts remaining fun k is => keeps_noting_holds (hp.cut k is) fun _ => rfl
  rcases hend with ⟨-, -, rfl⟩ | ⟨-, -, hcuts⟩ | ⟨-, -, -, _, -, hcuts⟩
  · exact ht'
  · exact hgather.yields hcuts ht'
  · exact hgather.yields hcuts ht'

/-- The reported statuses are those of the master. -/
theorem keeps_cutLoop_status {status : Status} (h : ∀ s t, ¬ p.solve.Yields s status t)
    (remaining : List (κ × List ℕ)) (left iterations total : ℕ) :
    (p.traced.cutLoop remaining left iterations total).Keeps fun u =>
      ∀ e ∈ u.2, e.answer ≠ some (.status status) := by
  refine keeps_cutLoop remaining (keeps_noting fun s hs => ?_) (fun k is => keeps_noting ?_)
    (fun cs => keeps_noting ?_) left iterations total
  · rcases hrun : p.solve.perform s with ⟨_ | status', t⟩
    · simp [hrun, Except.toOption] at hs
    · obtain rfl : status' = status := by simpa [hrun, Except.toOption] using hs
      exact h s t hrun
  · intro s hs
    obtain ⟨_, -, hb⟩ := Option.map_eq_some_iff.mp hs
    cases hb
  · intro s hs
    obtain ⟨_, -, hb⟩ := Option.map_eq_some_iff.mp hs
    cases hb

/-! ## The whole loop -/

/-- **What the rounds report.** -/
theorem cutLoop_accounts [Scalar α] [DecidableEq κ] (p : Participants α σ κ δ τ)
    (settings : Settings α) {q : ℚ} (hq : settings.maxRounds.numeric? = some (.finite q))
    (hstatus : ∀ s t, ¬ p.solve.Yields s .iterationLimit t) {view : σ → List δ}
    (hp : p.Grows view) {ks : List κ} (hks : ks.Nodup) (rest : κ → List ℕ) (s : σ) :
    ∃ answer t log,
      (p.traced.cutLoop (ks.map fun k => (k, rest k)) settings.rounds 0 0).perform (s, [])
          = (answer, t, log)
        ∧ solves log ≤ ⌈q⌉₊ + 1
        ∧ ∀ r, answer = .ok r → ∃ l : Loop κ δ, log = l.events ks rest
          ∧ l.rounds.length = r.iterations
          ∧ solves log = r.iterations + 1
          ∧ r.cuts = (l.rounds.map fun x => (x.found ks rest).length).sum
          ∧ view t = view s ++ l.rounds.flatMap (fun x => x.found ks rest)
          ∧ (r.status = .iterationLimit ↔
            r.iterations = ⌈q⌉₊ ∧ l.last.found ks rest ≠ [])
          ∧ (r.status ≠ .iterationLimit → r.status = l.last.status
            ∧ (l.last.status.isConfirmed = false
              ∨ ∀ k ∈ busy ks rest, l.last.cuts k = [])) := by
  obtain ⟨log, hperform, -, hends⟩ :=
    (traces_cutLoop (p := p) hks rest settings.rounds 0 0).notes s []
  rw [List.nil_append] at hperform
  refine ⟨_, _, log, hperform, ?_, fun r hr => ?_⟩
  · have hsolves := p.solves_cutLoop_le hks rest settings.rounds s
    rwa [hperform, Settings.rounds_eq hq] at hsolves
  · rw [hr] at hperform hends
    obtain ⟨l, hl, rfl, rfl⟩ := hends
    have hstart : Holds view (view s) ((s, []) : σ × List (Event α κ δ τ)) := by simp [Holds]
    have hview := holds_of_cutLoop hp hperform hstart
    rw [Holds, Loop.added_events] at hview
    have hlast : l.last.status ≠ .iterationLimit := by
      intro hlimit
      refine (keeps_cutLoop_status hstatus _ _ _ _).yields hperform (by simp)
        ⟨.solve, some (.status l.last.status)⟩ ?_ (by rw [hlimit])
      simp [Loop.events, Exchange.events]
    simp only [Nat.zero_add]
    refine ⟨l, rfl, rfl, l.solves_events ks rest, ?_, hview, ?_,
      Loop.status_of_ne_iterationLimit⟩
    · rw [Loop.added, List.length_flatMap]
    · rw [← Settings.rounds_eq hq]
      exact hl.status_eq_iterationLimit_iff hlast

end Participants

/-! ## The masters of workspaces -/

namespace Session

variable (w : Workspace Extended) (model : Model Extended) (report : Bool)
  (prefs : Preferences Extended) (env : Environment Extended)

/-- The sets of a workspace return their cuts and leave the master alone. -/
theorem participants_grows : (w.participants model report prefs env).Grows
    fun s => s.currentMaster.constraints where
  solve s := by
    show ((solveMaster env.master).perform s).2.currentMaster.constraints = _
    rw [perform_solveMaster]
    split
    · exact (Master.solve_frame ‹_›).2.1
    · rfl
  cut k is s := by
    have hkeeps : ((w.participants model report prefs env).cut k is).Keeps _ :=
      keeps_cut_master k is s.space.values s.master
    rw [currentMaster, (hkeeps s ⟨rfl, rfl⟩).2, currentMaster]
  add cs s t h := by
    obtain rfl := yields_addCuts.mp h
    rfl

/-- No status of a master is the one that reports the end of the rounds. -/
theorem solve_ne_iterationLimit (s t : Session Extended) :
    ¬ (w.participants model report prefs env).solve.Yields s .iterationLimit t := fun h => by
  rcases status_of_yields_solve h with h | h | h <;> cases h

end Session

namespace Participants

open RobustOpt.Action

/-! ## A set that never runs out of cuts -/

/-- A single set whose cuts are numbered, and a master that is their list. -/
def ratchet : Participants Extended (List ℕ) Unit ℕ Unit where
  count := 1
  owner := fun _ => ⟨⟩
  kindName := fun _ => "Ratchet"
  supports := fun _ _ => true
  register := fun _ _ => pure ⟨⟩
  setup := fun _ => pure ⟨⟩
  start := pure ⟨⟩
  reform := fun _ _ => pure .absent
  solve := pure .optimal
  cut := fun _ _ => do return [(← get).length]
  addCuts := fun cs => modify (· ++ cs)
  scenario := fun _ _ => pure []

theorem ratchet_grows : ratchet.Grows id where
  solve _ := rfl
  cut _ _ _ := rfl
  add cs s t h := by
    obtain rfl := yields_modify.mp h
    rfl

/-- At most two and a half rounds. -/
def ratchetSettings : Settings Extended :=
  { Settings.defaults with maxRounds := .real (.finite (5 / 2)) }

theorem ratchet_accounts : ∃ t log,
    (ratchet.traced.cutLoop [(⟨⟩, [0])] ratchetSettings.rounds 0 0).perform ([7], [])
        = (.ok ⟨.iterationLimit, 3, 3⟩, t, log)
      ∧ t = [7, 1, 2, 3] ∧ solves log = 4 := by
  have hstatus : ∀ s t, ¬ ratchet.solve.Yields s .iterationLimit t := fun s t h => by
    have := (yields_pure.mp h).1
    cases this
  obtain ⟨answer, t, log, hrun, -, hok⟩ := cutLoop_accounts ratchet ratchetSettings rfl hstatus
    ratchet_grows (List.nodup_singleton ⟨⟩) (fun _ => [0]) [7]
  have hrounds : ratchetSettings.rounds = 3 := by
    rw [Settings.rounds_eq rfl, Nat.ceil_eq_iff (by decide)]
    norm_num
  rw [hrounds] at hrun ⊢
  have hanswer : ((ratchet.traced.cutLoop [(⟨⟩, [0])] 3 0 0).perform ([7], [])).1
      = .ok ⟨.iterationLimit, 3, 3⟩ := rfl
  have hmaster : ((ratchet.traced.cutLoop [(⟨⟩, [0])] 3 0 0).perform ([7], [])).2.1
      = [7, 1, 2, 3] := rfl
  have hrun' : (ratchet.traced.cutLoop [(⟨⟩, [0])] 3 0 0).perform ([7], []) = (answer, t, log) :=
    hrun
  rw [hrun'] at hanswer hmaster
  obtain ⟨l, -, -, hsolves, -⟩ := hok _ hanswer
  exact ⟨t, log, hrun.trans (congrArg (·, t, log) hanswer), hmaster, hsolves⟩

end Participants

end RobustOpt
