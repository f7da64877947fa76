import RobustOpt.Proofs.Frame

/-!
# Resolutions side by side

Two actions are alike if, each from a state of its own, both fail with the same fault, or both
succeed with the same answer and leave related states. Two resolutions are alike if their
participants are, phase by phase.

## Main definitions

* `Action.Alike`: the relation of two actions at two states.
* `Participants.Stages`: how the states of two resolutions are related, phase by phase.
* `Participants.Simulates`: the participants of two resolutions lead alike from stage to stage.

## Main statements

* `Action.Alike.bind`, `Action.Alike.forM`, `Action.Alike.mapM`: sequences and loops.
* `Participants.Simulates.alike_resolve`: resolutions with alike participants are alike.
-/

namespace RobustOpt

variable {σ τ ε β γ : Type}

/-! ## Actions -/

namespace Action

/-- Both actions fail with one fault, or both give one answer and leave related states. -/
inductive Alike (R : β → σ → σ → Prop) (a a' : Action σ ε β) (s s' : σ) : Prop
  | fails {e : ε} {t t' : σ} (h : a.perform s = (.error e, t))
      (h' : a'.perform s' = (.error e, t')) : Alike R a a' s s'
  | yields {b : β} {t t' : σ} (h : a.Yields s b t) (h' : a'.Yields s' b t') (hR : R b t t') :
      Alike R a a' s s'

variable {R : β → σ → σ → Prop} {Q : γ → σ → σ → Prop} {a a' : Action σ ε β} {s s' t t' : σ}

theorem Alike.answer_eq (h : Alike R a a' s s') : (a.perform s).1 = (a'.perform s').1 := by
  cases h with
  | fails h h' => rw [h, h']
  | yields h h' =>
    unfold Yields at h h'
    rw [h, h']

theorem Alike.exists_yields {b : β} (h : Alike R a a' s s') (hy : a.Yields s b t) :
    ∃ t', a'.Yields s' b t' ∧ R b t t' := by
  cases h with
  | fails h _ =>
    rw [Yields, h] at hy
    cases hy
  | yields h h' hR =>
    obtain ⟨rfl, rfl⟩ := hy.unique h
    exact ⟨_, h', hR⟩

theorem Alike.mono {S : β → σ → σ → Prop} (h : Alike R a a' s s')
    (hR : ∀ b t t', a.Yields s b t → R b t t' → S b t t') : Alike S a a' s s' := by
  cases h with
  | fails h h' => exact .fails h h'
  | yields h h' hb => exact .yields h h' (hR _ _ _ h hb)

theorem alike_pure {b : β} (h : R b s s') : Alike R (pure b : Action σ ε β) (pure b) s s' :=
  .yields rfl rfl h

theorem alike_modify {f f' : σ → σ} {P : PUnit → σ → σ → Prop} (h : P ⟨⟩ (f s) (f' s')) :
    Alike P (modify f : Action σ ε PUnit) (modify f') s s' :=
  .yields rfl rfl h

theorem alike_lift {e : Except ε β} (h : ∀ b, e = .ok b → R b s s') :
    Alike R (liftM e : Action σ ε β) (liftM e) s s' := by
  cases e with
  | error e => exact .fails rfl rfl
  | ok b => exact .yields rfl rfl (h b rfl)

theorem perform_bind_of_error {e : ε} (h : a.perform s = (.error e, t)) (f : β → Action σ ε γ) :
    (a >>= f).perform s = (.error e, t) := by
  rw [perform_bind, h]

theorem perform_bind_of_yields {b : β} (h : a.Yields s b t) (f : β → Action σ ε γ) :
    (a >>= f).perform s = (f b).perform t := by
  rw [perform_bind, show a.perform s = (.ok b, t) from h]

/-- Alike actions go on alike, with what is known of the answer and of the two states. -/
theorem Alike.bind {f f' : β → Action σ ε γ} (h : Alike R a a' s s')
    (hf : ∀ b t t', a.Yields s b t → R b t t' → Alike Q (f b) (f' b) t t') :
    Alike Q (a >>= f) (a' >>= f') s s' := by
  cases h with
  | fails h h' => exact .fails (perform_bind_of_error h f) (perform_bind_of_error h' f')
  | yields h h' hR =>
    cases hf _ _ _ h hR with
    | fails hb hb' =>
      exact .fails ((perform_bind_of_yields h f).trans hb)
        ((perform_bind_of_yields h' f').trans hb')
    | yields hb hb' hQ =>
      exact .yields (yields_bind.mpr ⟨_, _, h, hb⟩) (yields_bind.mpr ⟨_, _, h', hb'⟩) hQ

theorem Alike.get_bind {f f' : σ → Action σ ε γ} (h : Alike Q (f s) (f' s') s s') :
    Alike Q (get >>= f) (get >>= f') s s' := by
  cases h with
  | fails h h' => exact .fails ((perform_get_bind f s).trans h) ((perform_get_bind f' s').trans h')
  | yields h h' hQ => exact .yields (yields_get_bind.mpr h) (yields_get_bind.mpr h') hQ

theorem Alike.onState {a a' : Action τ ε β} {T : β → τ → τ → Prop} {part : σ → τ}
    {put : τ → σ → σ} (h : Alike T a a' (part s) (part s'))
    (hT : ∀ b u u', T b u u' → R b (put u s) (put u' s')) :
    Alike R (a.onState part put) (a'.onState part put) s s' := by
  cases h with
  | fails h h' =>
    exact .fails (congrArg (fun r => (r.1, put r.2 s)) h) (congrArg (fun r => (r.1, put r.2 s')) h')
  | yields h h' hb =>
    exact .yields (yields_onState.mpr ⟨_, h, rfl⟩) (yields_onState.mpr ⟨_, h', rfl⟩) (hT _ _ _ hb)

theorem alike_ite {c : Prop} [Decidable c] {b b' : Action σ ε β} (h : c → Alike R a a' s s')
    (h' : ¬ c → Alike R b b' s s') :
    Alike R (if c then a else b) (if c then a' else b') s s' := by
  split
  · exact h ‹_›
  · exact h' ‹_›

/-! ### Loops -/

theorem Alike.forM {f f' : β → Action σ ε PUnit} {l : List β} (P : List β → σ → σ → Prop)
    (start : P [] s s')
    (step : ∀ done x t t', done ++ [x] <+: l → P done t t' →
      Alike (fun _ => P (done ++ [x])) (f x) (f' x) t t') :
    Alike (fun _ => P l) (l.forM f) (l.forM f') s s' := by
  suffices hgen : ∀ todo done s s', l = done ++ todo → P done s s' →
      Alike (fun _ => P l) (todo.forM f) (todo.forM f') s s' from hgen l [] s s' rfl start
  intro todo
  induction todo with
  | nil =>
    intro done s s' hl hP
    exact alike_pure (by simpa [hl] using hP)
  | cons x todo ih =>
    intro done s s' hl hP
    have hl' : l = (done ++ [x]) ++ todo := by simp [hl]
    exact (step done x s s' ⟨todo, hl'.symm⟩ hP).bind fun _ t t' _ ht =>
      ih (done ++ [x]) t t' hl' ht

theorem Alike.mapM {f f' : β → Action σ ε γ} {l : List β} (P : List γ → σ → σ → Prop)
    (start : P [] s s')
    (step : ∀ x ∈ l, ∀ out t t', P out t t' →
      Alike (fun c => P (out ++ [c])) (f x) (f' x) t t') :
    Alike P (l.mapM f) (l.mapM f') s s' := by
  suffices hgen : ∀ todo : List β, (∀ x ∈ todo, x ∈ l) → ∀ out s s', P out s s' →
      Alike (fun r => P (out ++ r)) (todo.mapM f) (todo.mapM f') s s' from
    hgen l (fun _ h => h) [] s s' start
  intro todo
  induction todo with
  | nil =>
    intro _ out s s' hP
    exact alike_pure (by simpa using hP)
  | cons x todo ih =>
    intro hl out s s' hP
    rw [List.mapM_cons, List.mapM_cons]
    refine (step x (hl x (by simp)) out s s' hP).bind fun c t t' _ ht => ?_
    refine (ih (fun y hy => hl y (by simp [hy])) (out ++ [c]) t t' ht).bind fun cs u u' _ hu => ?_
    exact alike_pure (by simpa using hu)

end Action

/-! ## The protocol -/

namespace Participants

open RobustOpt.Action

variable {α κ δ ρ : Type}

/-- The sets that own a constraint. -/
def Owns (p : Participants α σ κ δ ρ) (k : κ) : Prop := ∃ i < p.count, p.owner i = k

/-- How two states are related in each phase of a resolution. -/
structure Stages (σ κ δ : Type) where
  /-- After a number of registrations. -/
  registered : ℕ → σ → σ → Prop
  /-- After the setup of some sets. -/
  setUp : List κ → σ → σ → Prop
  /-- While the sets reformulate. -/
  reformed : σ → σ → Prop
  /-- Before a solve of the master. -/
  unsolved : σ → σ → Prop
  /-- After a solve of the master. -/
  solved : σ → σ → Prop
  /-- What holds of the cuts. -/
  cut : δ → Prop

/-- The participants deal with the same constraints, whose owners go by the same names and declare
the same phases, and each phase leads alike from one stage to the next. -/
structure Simulates (p p' : Participants α σ κ δ ρ) (K : Stages σ κ δ) [BEq κ] : Prop where
  count : p'.count = p.count
  owner : p'.owner = p.owner
  kindName : ∀ k, p.Owns k → p'.kindName k = p.kindName k
  supports : ∀ k, p.Owns k → p'.supports k = p.supports k
  register : ∀ i < p.count, ∀ s s', K.registered i s s' → Alike (fun _ => K.registered (i + 1))
    (p.register (p.owner i) i) (p'.register (p.owner i) i) s s'
  registered : ∀ s s', K.registered p.count s s' → K.setUp [] s s'
  setup : ∀ done k s s', done ++ [k] <+: (Registry.ofOwner p.owner p.count).owners →
    K.setUp done s s' → Alike (fun _ => K.setUp (done ++ [k])) (p.setup k) (p'.setup k) s s'
  start : ∀ s s', K.setUp (Registry.ofOwner p.owner p.count).owners s s' →
    Alike (fun _ => K.reformed) p.start p'.start s s'
  reform : ∀ k is s s', p.Owns k → K.reformed s s' →
    Alike (fun _ => K.reformed) (p.reform k is) (p'.reform k is) s s'
  solve : ∀ s s', K.unsolved s s' → Alike (fun _ => K.solved) p.solve p'.solve s s'
  cut : ∀ k is s s', p.Owns k → K.solved s s' →
    Alike (fun cs t t' => K.solved t t' ∧ ∀ c ∈ cs, K.cut c) (p.cut k is) (p'.cut k is) s s'
  addCuts : ∀ cs s s', K.solved s s' → (∀ c ∈ cs, K.cut c) →
    Alike (fun _ => K.unsolved) (p.addCuts cs) (p'.addCuts cs) s s'
  scenario : ∀ k is s s', p.Owns k → K.solved s s' →
    Alike (fun _ => K.solved) (p.scenario k is) (p'.scenario k is) s s'

namespace Simulates

variable [BEq κ] {p p' : Participants α σ κ δ ρ} {K : Stages σ κ δ} {s s' : σ}
  {remaining : List (κ × List ℕ)} (h : p.Simulates p' K)
include h

/-- A phase that a set does not declare is refused alike. -/
theorem alike_require {Q : γ → σ → σ → Prop} {k : κ} (hk : p.Owns k) (phase : Phase)
    {f f' : Unit → Action σ (Fault α) γ} (hf : Alike Q (f ⟨⟩) (f' ⟨⟩) s s') :
    Alike Q (p.require k phase >>= f) (p'.require k phase >>= f') s s' := by
  unfold require
  rw [h.supports k hk, h.kindName k hk]
  split
  · exact hf
  · exact .fails rfl rfl

/-- Registrations are alike, and the registries agree. -/
theorem alike_registerAll (hs : K.registered 0 s s') :
    Alike (fun r t t' => r = .ofOwner p.owner p.count ∧ K.registered p.count t t') p.registerAll
      p'.registerAll s s' := by
  have hfold : ∀ k ≤ p.count, Alike (fun r t t' => r = .ofOwner p.owner k ∧ K.registered k t t')
      ((List.range k).foldlM p.registerAt .empty) ((List.range k).foldlM p'.registerAt .empty)
      s s' := by
    intro k
    induction k with
    | zero => exact fun _ => alike_pure ⟨rfl, hs⟩
    | succ k ih =>
      intro hk
      rw [List.range_succ, List.foldlM_append, List.foldlM_append]
      refine (ih (Nat.le_of_succ_le hk)).bind fun r t t' _ ht => ?_
      obtain ⟨rfl, ht⟩ := ht
      refine Alike.bind (R := fun r t t' => r = .ofOwner p.owner (k + 1)
        ∧ K.registered (k + 1) t t') ?_ fun r t t' _ ht => alike_pure ht
      unfold registerAt
      rw [h.owner]
      refine h.alike_require ⟨k, hk, rfl⟩ _ ((h.register k hk t t' ht).bind fun _ u u' _ hu => ?_)
      rw [Registry.register_ofOwner]
      exact alike_pure ⟨rfl, hu⟩
  unfold registerAll
  rw [h.count]
  refine (hfold p.count (Nat.le_refl _)).bind fun r t t' _ ht => ?_
  obtain ⟨rfl, ht⟩ := ht
  rw [Registry.missing_ofOwner]
  exact alike_pure ⟨rfl, ht⟩

variable [LawfulBEq κ]

omit h in
theorem owns_of_mem_owners {k : κ} (hk : k ∈ (Registry.ofOwner p.owner p.count).owners) :
    p.Owns k :=
  Registry.mem_owners_ofOwner.mp hk

theorem alike_setupAll (hs : K.setUp [] s s') :
    Alike (fun _ => K.setUp (Registry.ofOwner p.owner p.count).owners)
      (p.setupAll (.ofOwner p.owner p.count)) (p'.setupAll (.ofOwner p.owner p.count)) s s' :=
  Alike.forM K.setUp hs fun done k t t' hinit ht =>
    h.alike_require (owns_of_mem_owners (hinit.subset (by simp))) _ (h.setup done k t t' hinit ht)

variable [Scalar α]

theorem alike_reformAll (hs : K.reformed s s') :
    Alike (fun out t t' => K.reformed t t' ∧ ∀ q ∈ out.2, p.Owns q.1)
      (p.reformAll (.ofOwner p.owner p.count)) (p'.reformAll (.ofOwner p.owner p.count)) s s' := by
  refine Alike.bind (Alike.mapM (fun parts t t' => K.reformed t t' ∧ ∀ q ∈ parts, p.Owns q.2.1)
    ⟨hs, by simp⟩ fun k hk parts t t' ht => ?_) fun parts t t' _ ht => ?_
  · have hown := owns_of_mem_owners hk
    refine Alike.bind (R := fun _ => K.reformed) ?_ fun out u u' _ hu => alike_pure ⟨hu, ?_⟩
    · unfold reformSet
      rw [h.supports k hown, h.kindName k hown]
      exact alike_ite (fun _ => (h.reform k _ t t' hown ht.1).bind fun _ u u' _ hu =>
        alike_lift fun _ _ => hu) fun _ => alike_pure ht.1
    · intro q hq
      rcases List.mem_append.mp hq with hq | hq
      · exact ht.2 q hq
      · obtain rfl := List.mem_singleton.mp hq
        exact hown
  · refine alike_pure ⟨ht.1, fun q hq => ?_⟩
    obtain ⟨part, hpart, rfl⟩ := List.mem_map.mp hq
    exact ht.2 part hpart

theorem alike_prepare (hs : K.registered p.count s s') :
    Alike (fun out t t' => K.reformed t t' ∧ ∀ q ∈ out.2, p.Owns q.1)
      (p.prepare (.ofOwner p.owner p.count)) (p'.prepare (.ofOwner p.owner p.count)) s s' :=
  (h.alike_setupAll (h.registered s s' hs)).bind fun _ t t' _ ht =>
    (h.start t t' ht).bind fun _ _ _ _ hu => h.alike_reformAll hu

omit [LawfulBEq κ] [Scalar α] in
theorem alike_gatherCuts (hrem : ∀ q ∈ remaining, p.Owns q.1) (hs : K.solved s s') :
    Alike (fun cs t t' => K.solved t t' ∧ ∀ c ∈ cs, K.cut c) (p.gatherCuts remaining)
      (p'.gatherCuts remaining) s s' := by
  refine Alike.bind (Alike.mapM (fun found t t' => K.solved t t' ∧ ∀ cs ∈ found, ∀ c ∈ cs, K.cut c)
    ⟨hs, by simp⟩ fun q hq found t t' ht => ?_) fun found t t' _ ht => ?_
  · refine Alike.mono (R := fun cs t t' => K.solved t t' ∧ ∀ c ∈ cs, K.cut c) ?_
      fun cs u u' _ hu => ⟨hu.1, fun ds hds => ?_⟩
    · exact alike_ite (fun _ => alike_pure ⟨ht.1, by simp⟩) fun _ =>
        h.alike_require (hrem q hq) _ (h.cut q.1 q.2 t t' (hrem q hq) ht.1)
    · rcases List.mem_append.mp hds with hds | hds
      · exact ht.2 ds hds
      · obtain rfl := List.mem_singleton.mp hds
        exact hu.2
  · refine alike_pure ⟨ht.1, fun c hc => ?_⟩
    obtain ⟨cs, hcs, hc⟩ := List.mem_flatten.mp hc
    exact ht.2 cs hcs c hc

omit [LawfulBEq κ] [Scalar α] in
/-- Round by round the masters are solved alike and get the same cuts. -/
theorem alike_cutLoop (hrem : ∀ q ∈ remaining, p.Owns q.1) {left iterations total : ℕ}
    (hs : K.unsolved s s') : Alike (fun _ => K.solved)
      (p.cutLoop remaining left iterations total) (p'.cutLoop remaining left iterations total)
      s s' := by
  induction left generalizing iterations total s s' with
  | zero =>
    refine (h.solve s s' hs).bind fun status t t' _ ht => ?_
    refine alike_ite (fun _ => alike_pure ht) fun _ => ?_
    refine (h.alike_gatherCuts hrem ht).bind fun cs u u' _ hu => ?_
    exact alike_ite (fun _ => alike_pure hu.1) fun _ => alike_pure hu.1
  | succ left ih =>
    refine (h.solve s s' hs).bind fun status t t' _ ht => ?_
    refine alike_ite (fun _ => alike_pure ht) fun _ => ?_
    refine (h.alike_gatherCuts hrem ht).bind fun cs u u' _ hu => ?_
    exact alike_ite (fun _ => alike_pure hu.1) fun _ =>
      (h.addCuts cs u u' hu.1 hu.2).bind fun _ _ _ _ hv => ih hv

omit [LawfulBEq κ] [Scalar α] in
theorem alike_collectScenarios (hrem : ∀ q ∈ remaining, p.Owns q.1) (hs : K.solved s s') :
    Alike (fun _ => K.solved) (p.collectScenarios remaining) (p'.collectScenarios remaining)
      s s' := by
  refine Alike.bind (Alike.mapM (fun _ => K.solved) hs fun q hq _ t t' ht => ?_)
    fun _ _ _ _ ht => alike_pure ht
  refine alike_ite (fun _ => alike_pure ht) fun _ => h.alike_require (hrem q hq) _ ?_
  refine (h.scenario q.1 q.2 t t' (hrem q hq) ht).bind fun scenarios u u' _ hu => ?_
  rw [h.kindName q.1 (hrem q hq)]
  exact alike_ite (fun _ => .fails rfl rfl) fun _ => alike_pure hu

/-- Resolutions with alike participants are alike, if they are when the rounds begin. -/
theorem alike_resolve {g g' : Progress σ κ} (hs : K.registered 0 g.world g'.world)
    (hbegin : ∀ r s out t t', p.registerAll.Yields g.world r s → (p.prepare r).Yields s out t →
      K.reformed t t' → K.unsolved t t') (limit : ℕ) (report : Bool) :
    Alike (fun _ t t' => K.solved t.world t'.world) (p.resolve limit report)
      (p'.resolve limit report) g g' := by
  refine Alike.bind (R := fun r t t' => r = .ofOwner p.owner p.count
    ∧ K.registered p.count t.world t'.world ∧ p.registerAll.Yields g.world r t.world) ?_
    fun r t t' _ ht => ?_
  · refine Alike.onState ((h.alike_registerAll hs).mono (S := fun r t t' =>
      r = .ofOwner p.owner p.count ∧ K.registered p.count t t' ∧ p.registerAll.Yields g.world r t)
      fun r t t' hy ht => ⟨ht.1, ht.2, hy⟩) fun r u u' hu => hu
  · obtain ⟨rfl, ht, hreg⟩ := ht
    refine (alike_modify (P := fun _ u u' => K.registered p.count u.world u'.world
      ∧ u.world = t.world) ⟨ht, rfl⟩).bind fun _ u u' _ hu => ?_
    rw [← hu.2] at hreg
    refine Alike.onState (T := fun _ => K.solved) ?_ fun _ _ _ hv => hv
    refine (h.alike_prepare hu.1).bind fun out v v' hprep hv => ?_
    refine (h.alike_cutLoop hv.2 (hbegin _ _ _ _ _ hreg hprep hv.1)).bind fun rounds x x' _ hx => ?_
    exact alike_ite (fun _ => (h.alike_collectScenarios hv.2 hx).bind fun _ _ _ _ hy =>
      alike_pure hy) fun _ => alike_pure hx

end Simulates

end Participants

end RobustOpt
