import RobustOpt.Proofs.Frame

/-!
# The calls of a resolution

A resolution can be observed: participants that note every call they receive, with the answer they
gave, behave like the plain ones. What an observed action notes is described by the lists of events
it may note when it succeeds; if it fails, it has noted the beginning of such a list, where the
last call may have been answered otherwise or not at all. What it has noted tells where the failure
comes from: from the last call, from a check of its answer, or from the phase of the next call.

## Main definitions

* `Participants.Event`: a call with its answer.
* `Participants.traced`: the participants, noting their calls.
* `Participants.CutShort`: the beginning of a list of events, up to the answer to its last call.
* `Participants.Origin`: where a failure comes from.
* `Participants.Traces`: an observed action, the plain one and the events it may note.

## Main statements

* `Participants.Traces.bind`, `Participants.Traces.mapM`: the events of sequences and loops.
* `Participants.Traces.noting`: the event of a single call.
-/

namespace RobustOpt

namespace Participants

/-- A call of a resolution to its participants: to a set `k`, or to the master. -/
inductive Call (κ δ : Type) where
  | register (k : κ) (index : ℕ)
  | setup (k : κ)
  /-- A new master is started. -/
  | start
  | reform (k : κ) (indices : List ℕ)
  /-- The master is solved. -/
  | solve
  | cut (k : κ) (indices : List ℕ)
  /-- Cuts are added to the master. -/
  | add (cuts : List δ)
  | scenario (k : κ) (indices : List ℕ)

/-- The set that a call goes to, and the phase it belongs to. -/
def Call.phase? {κ δ : Type} : Call κ δ → Option (κ × Phase)
  | register k _ => some (k, .register)
  | setup k => some (k, .setup)
  | reform k _ => some (k, .reform)
  | cut k _ => some (k, .cut)
  | scenario k _ => some (k, .scenario)
  | start | solve | add _ => none

inductive Answer (α δ τ : Type) where
  | done
  | report (r : Literal α)
  | status (s : Status)
  | cuts (cs : List δ)
  | scenarios (found : List τ)

/-- A call with its answer. A call that fails has none. -/
structure Event (α κ δ τ : Type) where
  call : Call κ δ
  answer : Option (Answer α δ τ)

section Events

variable {α σ κ δ τ β : Type}

/-- Perform an action, and note the call it stands for behind the events so far. -/
def noting (call : Call κ δ) (answer : β → Answer α δ τ) (a : Action σ (Fault α) β) :
    Action (σ × List (Event α κ δ τ)) (Fault α) β :=
  .ofFun fun s =>
    let (result, t) := a.perform s.1
    (result, t, s.2 ++ [⟨call, result.toOption.map answer⟩])

/-- The participants, noting the calls they receive. -/
def traced (p : Participants α σ κ δ τ) :
    Participants α (σ × List (Event α κ δ τ)) κ δ τ where
  count := p.count
  owner := p.owner
  kindName := p.kindName
  supports := p.supports
  register k i := noting (.register k i) (fun _ => .done) (p.register k i)
  setup k := noting (.setup k) (fun _ => .done) (p.setup k)
  start := noting .start (fun _ => .done) p.start
  reform k is := noting (.reform k is) .report (p.reform k is)
  solve := noting .solve .status p.solve
  cut k is := noting (.cut k is) .cuts (p.cut k is)
  addCuts cs := noting (.add cs) (fun _ => .done) (p.addCuts cs)
  scenario k is := noting (.scenario k is) .scenarios (p.scenario k is)

@[simp] theorem traced_count (p : Participants α σ κ δ τ) : p.traced.count = p.count := rfl

@[simp] theorem traced_owner (p : Participants α σ κ δ τ) : p.traced.owner = p.owner := rfl

@[simp] theorem traced_kindName (p : Participants α σ κ δ τ) : p.traced.kindName = p.kindName :=
  rfl

@[simp] theorem traced_supports (p : Participants α σ κ δ τ) : p.traced.supports = p.supports := rfl

/-- The set that a call goes to declares its phase. -/
def Permits (p : Participants α σ κ δ τ) (c : Call κ δ) : Prop :=
  ∀ k phase, c.phase? = some (k, phase) → p.supports k phase = true

theorem permits_of_supports {p : Participants α σ κ δ τ} {c : Call κ δ} {k : κ} {phase : Phase}
    (hc : c.phase? = some (k, phase)) (h : p.supports k phase = true) : p.Permits c := by
  rintro _ _ hphase
  obtain ⟨rfl, rfl⟩ := Prod.mk.inj (Option.some.inj (hc.symm.trans hphase))
  exact h

theorem permits_of_phase?_eq_none {p : Participants α σ κ δ τ} {c : Call κ δ}
    (hc : c.phase? = none) : p.Permits c := by
  rintro _ _ hphase
  simp [hc] at hphase

/-- What a call makes the participants do, with the answer that is noted. -/
def respond (p : Participants α σ κ δ τ) : Call κ δ → Action σ (Fault α) (Answer α δ τ)
  | .register k i => (fun _ => .done) <$> p.register k i
  | .setup k => (fun _ => .done) <$> p.setup k
  | .start => (fun _ => .done) <$> p.start
  | .reform k is => .report <$> p.reform k is
  | .solve => .status <$> p.solve
  | .cut k is => .cuts <$> p.cut k is
  | .add cs => (fun _ => .done) <$> p.addCuts cs
  | .scenario k is => .scenarios <$> p.scenario k is

/-- The first list is the beginning of the second one, except for the answer to its last call. -/
inductive CutShort : List (Event α κ δ τ) → List (Event α κ δ τ) → Prop
  | nil (full : List (Event α κ δ τ)) : CutShort [] full
  | last {e e' : Event α κ δ τ} (h : e.call = e'.call) (rest : List (Event α κ δ τ)) :
    CutShort [e] (e' :: rest)
  | cons (e : Event α κ δ τ) {es full : List (Event α κ δ τ)} : CutShort es full →
    CutShort (e :: es) (e :: full)

variable {es full : List (Event α κ δ τ)}

theorem CutShort.append_left (pre : List (Event α κ δ τ)) (h : CutShort es full) :
    CutShort (pre ++ es) (pre ++ full) := by
  induction pre with
  | nil => exact h
  | cons e pre ih => exact .cons e ih

theorem CutShort.append_right (h : CutShort es full) (post : List (Event α κ δ τ)) :
    CutShort es (full ++ post) := by
  induction h with
  | nil full => exact .nil _
  | last h rest => exact .last h _
  | cons e _ ih => exact .cons e ih

/-- The calls of a list that is cut short are the first ones of the full list. -/
theorem CutShort.calls (h : CutShort es full) :
    es.map Event.call <+: full.map Event.call := by
  induction h with
  | nil full => exact List.nil_prefix
  | last h rest => exact ⟨rest.map Event.call, by simp [h]⟩
  | cons e _ ih => simpa using ih

variable [Scalar α]

/-- The answers that the protocol refuses, and the fault that each of them is refused with. -/
inductive Rejects (p : Participants α σ κ δ τ) : Call κ δ → Answer α δ τ → Fault α → Prop
  /-- A report that does not divide the constraints offered. -/
  | report {k : κ} {indices : List ℕ} {r : Literal α} {e : Fault α}
    (h : Report.partition (p.kindName k) r indices = .error e) :
    Rejects p (.reform k indices) (.report r) e
  /-- Scenarios that are not one for each constraint. -/
  | scenarios {k : κ} {indices : List ℕ} {found : List τ} (h : found.length ≠ indices.length) :
    Rejects p (.scenario k indices) (.scenarios found)
      (.scenarioCount (p.kindName k) found.length indices.length)

/-- Where a failure with the fault `e` that leaves the state `t` comes from, if the events `es` were
noted of those in `full`. -/
inductive Origin (p : Participants α σ κ δ τ) (e : Fault α) (t : σ) :
    List (Event α κ δ τ) → List (Event α κ δ τ) → Prop
  /-- The last call has failed. -/
  | call (init full : List (Event α κ δ τ)) {c : Call κ δ} {s : σ}
    (h : (p.respond c).perform s = (.error e, t)) : Origin p e t (init ++ [⟨c, none⟩]) full
  /-- The answer to the last call was refused. -/
  | answer (init full : List (Event α κ δ τ)) {c : Call κ δ} {a : Answer α δ τ}
    (h : p.Rejects c a e) : Origin p e t (init ++ [⟨c, some a⟩]) full
  /-- The set that the next call would go to does not declare its phase. -/
  | phase (es : List (Event α κ δ τ)) {c : Call κ δ} {a : Option (Answer α δ τ)}
    (rest : List (Event α κ δ τ)) {k : κ} {phase : Phase} (hphase : c.phase? = some (k, phase))
    (hk : p.supports k phase = false) (he : e = .unsupported (p.kindName k) phase.duty) :
    Origin p e t es (es ++ ⟨c, a⟩ :: rest)

section Origin

variable {p : Participants α σ κ δ τ} {e : Fault α} {t : σ}

/-- A single call that fails. -/
theorem Origin.of_error {c : Call κ δ} {answer : β → Answer α δ τ} {a : Action σ (Fault α) β}
    {s : σ} (hrespond : p.respond c = answer <$> a) (h : a.perform s = (.error e, t)) :
    p.Origin e t [⟨c, none⟩] full :=
  .call [] full (s := s) (by rw [hrespond, Action.perform_map, h]; rfl)

theorem Origin.append_left (pre : List (Event α κ δ τ)) (h : p.Origin e t es full) :
    p.Origin e t (pre ++ es) (pre ++ full) := by
  cases h with
  | call init _ h =>
    rw [← List.append_assoc]
    exact .call _ _ h
  | answer init _ h =>
    rw [← List.append_assoc]
    exact .answer _ _ h
  | phase _ rest hphase hk he =>
    rw [← List.append_assoc]
    exact .phase _ rest hphase hk he

theorem Origin.append_right (h : p.Origin e t es full) (post : List (Event α κ δ τ)) :
    p.Origin e t es (full ++ post) := by
  cases h with
  | call init _ h => exact .call init _ h
  | answer init _ h => exact .answer init _ h
  | phase _ rest hphase hk he =>
    rw [List.append_assoc]
    exact .phase es (rest ++ post) hphase hk he

end Origin

/-- What an action notes, given how it ended and the state `t` that it left. -/
def Ends (p : Participants α σ κ δ τ) (L : β → List (Event α κ δ τ) → Prop) (t : σ) :
    Except (Fault α) β → List (Event α κ δ τ) → Prop
  | .ok b, es => L b es
  | .error e, es => ∃ b full, L b full ∧ CutShort es full ∧ p.Origin e t es full

theorem Ends.mono {p : Participants α σ κ δ τ} {L M : β → List (Event α κ δ τ) → Prop} {t : σ}
    (hLM : ∀ b es, L b es → M b es) {r : Except (Fault α) β} (h : p.Ends L t r es) :
    p.Ends M t r es := by
  cases r with
  | ok b => exact hLM b es h
  | error e =>
    obtain ⟨b, full, hL, h⟩ := h
    exact ⟨b, full, hLM b full hL, h⟩

/-- Behind other events. -/
theorem Ends.append_left {p : Participants α σ κ δ τ} {L : β → List (Event α κ δ τ) → Prop} {t : σ}
    (pre : List (Event α κ δ τ)) {r : Except (Fault α) β}
    (h : p.Ends (fun b es => L b (pre ++ es)) t r es) : p.Ends L t r (pre ++ es) := by
  cases r with
  | ok b => exact h
  | error e =>
    obtain ⟨b, full, hL, hcut, horigin⟩ := h
    exact ⟨b, pre ++ full, hL, hcut.append_left pre, horigin.append_left pre⟩

/-- The observed action does what the plain one does, makes only calls that the sets permit, and
notes what `L` allows. -/
structure Traces (p : Participants α σ κ δ τ)
    (a' : Action (σ × List (Event α κ δ τ)) (Fault α) β) (a : Action σ (Fault α) β)
    (L : β → List (Event α κ δ τ) → Prop) : Prop where
  possible : ∃ b es, L b es
  notes : ∀ s log, ∃ es, a'.perform (s, log) = ((a.perform s).1, (a.perform s).2, log ++ es)
    ∧ (∀ e ∈ es, p.Permits e.call) ∧ p.Ends L (a.perform s).2 (a.perform s).1 es

end Events

section Calls

open RobustOpt.Action

variable {α σ κ δ τ β : Type} {call : Call κ δ} {answer : β → Answer α δ τ}
  {a : Action σ (Fault α) β}

/-- A property of all noted events outlasts a call whose own event has it. -/
theorem keeps_noting {Q : Event α κ δ τ → Prop}
    (h : ∀ s, Q ⟨call, (a.perform s).1.toOption.map answer⟩) :
    (noting call answer a).Keeps fun u => ∀ e ∈ u.2, Q e := by
  rintro ⟨s, log⟩ hlog
  exact List.forall_mem_append.mpr ⟨hlog, List.forall_mem_singleton.mpr (h s)⟩

/-- A call that succeeds is noted with its answer. -/
theorem yields_noting {b : β} {u v : σ × List (Event α κ δ τ)}
    (h : (noting call answer a).Yields u b v) :
    a.Yields u.1 b v.1 ∧ v.2 = u.2 ++ [⟨call, some (answer b)⟩] := by
  obtain ⟨hb, hv⟩ := Prod.mk.inj h
  refine ⟨Prod.ext hb (congrArg Prod.fst hv), ?_⟩
  rw [← hv, hb]
  rfl

end Calls

namespace Traces

open RobustOpt.Action

variable {α σ κ δ τ β γ ι A : Type} [Scalar α] {p : Participants α σ κ δ τ}
  {a' : Action (σ × List (Event α κ δ τ)) (Fault α) β} {a : Action σ (Fault α) β}
  {L M : β → List (Event α κ δ τ) → Prop}

protected theorem mono (h : Traces p a' a L) (hLM : ∀ b es, L b es → M b es) : Traces p a' a M where
  possible := h.possible.imp fun b => Exists.imp (hLM b)
  notes s log := by
    obtain ⟨es, hperform, hpermits, hends⟩ := h.notes s log
    exact ⟨es, hperform, hpermits, hends.mono hLM⟩

protected theorem pure {b : β} (h : L b []) : Traces p (pure b) (pure b) L where
  possible := ⟨b, [], h⟩
  notes s log := ⟨[], by simp, by simp, h⟩

/-- A call whose phase the set declares. -/
protected theorem noting {call : Call κ δ} {answer : β → Answer α δ τ} (hcall : p.Permits call)
    (hrespond : p.respond call = answer <$> a) (default : β) : Traces p (noting call answer a) a
      fun b es => es = [⟨call, some (answer b)⟩] where
  possible := ⟨default, _, rfl⟩
  notes s log := by
    refine ⟨[⟨call, (a.perform s).1.toOption.map answer⟩], rfl, by simpa using hcall, ?_⟩
    rcases hrun : a.perform s with ⟨e | b, t⟩
    · exact ⟨default, _, rfl, .last (by rfl) [], .of_error hrespond hrun⟩
    · rfl

/-- A call whose answer is checked: a failing check concerns this answer only. -/
protected theorem checked {call : Call κ δ} {answer : β → Answer α δ τ}
    {L : γ → List (Event α κ δ τ) → Prop} (check : β → Except (Fault α) γ)
    {f' : β → Action (σ × List (Event α κ δ τ)) (Fault α) γ} {f : β → Action σ (Fault α) γ}
    (hf' : ∀ b s, (f' b).perform s = (check b, s)) (hf : ∀ b s, (f b).perform s = (check b, s))
    (hcall : p.Permits call) (hrespond : p.respond call = answer <$> a)
    (hrejects : ∀ b e, check b = .error e → p.Rejects call (answer b) e)
    {default : β} {c : γ} (hdefault : check default = .ok c)
    (h : ∀ b c, check b = .ok c → L c [⟨call, some (answer b)⟩]) :
    Traces p (Participants.noting call answer a >>= f') (a >>= f) L where
  possible := ⟨c, _, h default c hdefault⟩
  notes s log := by
    refine ⟨[⟨call, (a.perform s).1.toOption.map answer⟩], ?_, by simpa using hcall, ?_⟩
    · simp only [perform_bind, Participants.noting, perform_ofFun]
      rcases a.perform s with ⟨_ | b, t⟩
      · rfl
      · simp only [hf, hf']
    · rw [perform_bind]
      rcases hrun : a.perform s with ⟨e | b, t⟩
      · exact ⟨c, _, h default c hdefault, .last (by rfl) [], .of_error hrespond hrun⟩
      · simp only [hf]
        cases hb : check b with
        | ok c => exact h b c hb
        | error e =>
          exact ⟨c, _, h default c hdefault, .last (by rfl) [], .answer [] _ (hrejects b e hb)⟩

protected theorem bind {K : β → List (Event α κ δ τ) → Prop} {L : γ → List (Event α κ δ τ) → Prop}
    {f' : β → Action (σ × List (Event α κ δ τ)) (Fault α) γ} {f : β → Action σ (Fault α) γ}
    (ha : Traces p a' a K)
    (hf : ∀ b es, K b es → Traces p (f' b) (f b) fun c fs => L c (es ++ fs)) :
    Traces p (a' >>= f') (a >>= f) L where
  possible := by
    obtain ⟨b, es, hK⟩ := ha.possible
    obtain ⟨c, fs, hL⟩ := (hf b es hK).possible
    exact ⟨c, es ++ fs, hL⟩
  notes s log := by
    obtain ⟨es, hperform, hpermits, hends⟩ := ha.notes s log
    rw [perform_bind, perform_bind, hperform]
    rcases hrun : a.perform s with ⟨e | b, t⟩
    · -- the first action fails: what it noted is continued by what the second one might note
      rw [hrun] at hends
      obtain ⟨b, full, hK, hcut, horigin⟩ := hends
      obtain ⟨c, fs, hL⟩ := (hf b full hK).possible
      exact ⟨es, rfl, hpermits, c, full ++ fs, hL, hcut.append_right fs, horigin.append_right fs⟩
    · rw [hrun] at hends
      obtain ⟨fs, hperform', hpermits', hends'⟩ := (hf b es hends).notes t (log ++ es)
      exact ⟨es ++ fs, by simp only [hperform', List.append_assoc],
        List.forall_mem_append.mpr ⟨hpermits, hpermits'⟩, hends'.append_left es⟩

protected theorem ite {c : Prop} [Decidable c] {b' : Action (σ × List (Event α κ δ τ)) (Fault α) β}
    {b : Action σ (Fault α) β} (ha : c → Traces p a' a L) (hb : ¬c → Traces p b' b L) :
    Traces p (if c then a' else b') (if c then a else b) L := by
  split_ifs with h
  exacts [ha h, hb h]

/-- A call that is made only if its set declares the phase, with what may follow it. -/
protected theorem require (call : Call κ δ) {k : κ} {phase : Phase}
    (hphase : call.phase? = some (k, phase))
    {f' : Unit → Action (σ × List (Event α κ δ τ)) (Fault α) β}
    {f : Unit → Action σ (Fault α) β} (hpossible : ∃ b answer rest, L b (⟨call, answer⟩ :: rest))
    (h : p.supports k phase = true → Traces p (f' ⟨⟩) (f ⟨⟩) L) :
    Traces p (p.traced.require k phase >>= f') (p.require k phase >>= f) L := by
  unfold Participants.require
  show Traces p ((if p.supports k phase then pure () else throw _) >>= f') _ L
  by_cases hk : p.supports k phase = true
  · simpa only [hk, if_true, pure_bind] using h hk
  · simp only [hk, Bool.false_eq_true, ↓reduceIte, ExceptT.bind_throw]
    obtain ⟨b, answer, rest, hL⟩ := hpossible
    exact ⟨⟨b, _, hL⟩, fun s log => ⟨[], by simp, by simp, b, _, hL, .nil _,
      .phase [] rest hphase (Bool.eq_false_iff.mpr hk) rfl⟩⟩

/-- A loop over different items, each of which notes the events `e` of some datum `x` and answers
`o` of it. -/
protected theorem mapM [DecidableEq ι] [Inhabited A] {l : List ι} (hl : l.Nodup)
    {f' : ι → Action (σ × List (Event α κ δ τ)) (Fault α) β} {f : ι → Action σ (Fault α) β}
    {m : ι → A → Prop} {o : ι → A → β} {e : ι → A → List (Event α κ δ τ)}
    (h : ∀ i ∈ l, Traces p (f' i) (f i) fun b es => ∃ x, m i x ∧ b = o i x ∧ es = e i x) :
    Traces p (l.mapM f') (l.mapM f) fun bs es => ∃ x : ι → A, (∀ i ∈ l, m i (x i))
      ∧ bs = l.map (fun i => o i (x i)) ∧ es = l.flatMap fun i => e i (x i) := by
  induction l with
  | nil =>
    simp only [List.mapM_nil]
    exact Traces.pure ⟨fun _ => default, by simp, rfl, rfl⟩
  | cons i l ih =>
    obtain ⟨hi, hl⟩ := List.nodup_cons.mp hl
    obtain ⟨hhead, htail⟩ := List.forall_mem_cons.mp h
    simp only [List.mapM_cons]
    refine hhead.bind ?_
    rintro _ _ ⟨a, ha, rfl, rfl⟩
    refine (ih hl htail).bind ?_
    rintro _ _ ⟨x, hx, rfl, rfl⟩
    have hne : ∀ j ∈ l, Function.update x i a j = x j := fun j hj =>
      Function.update_of_ne (fun hji : j = i => hi (hji ▸ hj)) a x
    refine Traces.pure ⟨Function.update x i a, ?_, ?_, ?_⟩
    · refine List.forall_mem_cons.mpr ⟨by simpa using ha, fun j hj => ?_⟩
      rw [hne j hj]
      exact hx j hj
    · rw [List.map_cons, Function.update_self]
      exact congrArg _ (List.map_congr_left fun j hj => congrArg (o j) (hne j hj).symm)
    · rw [List.flatMap_cons, Function.update_self, List.append_nil]
      exact congrArg _ (List.flatMap_congr fun j hj => congrArg (e j) (hne j hj).symm)

end Traces

end Participants

/-- The state of a resolution with the events noted so far. -/
def Progress.noting {α σ κ δ τ : Type} (g : Progress σ κ)
    (log : List (Participants.Event α κ δ τ)) :
    Progress (σ × List (Participants.Event α κ δ τ)) κ :=
  ⟨(g.world, log), g.registry⟩

end RobustOpt
