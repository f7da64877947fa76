import Mathlib.Order.Nat
import RobustOpt.Proofs.Course
import RobustOpt.Proofs.Renewal
import RobustOpt.Proofs.Session

/-!
# What sets keep of a resolution

A set outlasts the resolutions it takes part in, and so do the constraints it has noted. Whether a
resolution succeeds or fails, and wherever it fails, these are the first constraints that the set
owns of the model it registered last, without gaps and in order. All else that a set keeps of a
resolution is taken anew by the next setup.

## Main definitions

* `Model.ownedBelow`: the constraints below a bound that a set is responsible for.
* `UncertaintySet.Notes`: a set has noted such constraints only.
* `UncertaintySet.record`: what no phase after the registration changes.

## Main statements

* `CuttingPlane.Notes.register`: one registration adds the next constraint, or none.
* `Session.registered_of_perform`: what registrations leave, also if one of them fails.
* `Workspace.core_runModel`, `Workspace.notes_runModel`: what a resolution leaves of the sets.
-/

namespace RobustOpt

open RobustOpt.Action

variable {α : Type}

/-! ## The first constraints of a set -/

namespace Model

/-- The constraints of a model below a bound that a set is responsible for. -/
def ownedBelow (m : Model α) (id k : ℕ) : List Int :=
  ((List.range k).filter fun i => m.setFor i == id).map Int.ofNat

variable {m : Model α} {id k n : ℕ}

theorem mem_ownedBelow {i : ℕ} : (i : Int) ∈ m.ownedBelow id k ↔ i < k ∧ m.setFor i = id := by
  simp [ownedBelow]

theorem ownedBelow_succ (m : Model α) (id k : ℕ) :
    m.ownedBelow id (k + 1)
      = m.ownedBelow id k ++ if m.setFor k = id then [(k : Int)] else [] := by
  by_cases h : m.setFor k = id <;> simp [ownedBelow, List.range_succ, h]

/-- The bound can be lowered as long as it stays above the constraints of the set. -/
theorem ownedBelow_eq (h : k ≤ n) (hk : ∀ i < n, m.setFor i = id → i < k) :
    m.ownedBelow id n = m.ownedBelow id k := by
  induction n, h using Nat.le_induction with
  | base => rfl
  | succ n hkn ih =>
    have hn : m.setFor n ≠ id := fun hown => by
      have := hk n (Nat.lt_succ_self n) hown
      omega
    rw [ownedBelow_succ, if_neg hn, List.append_nil]
    exact ih fun i hi => hk i (Nat.lt_succ_of_lt hi)

end Model

namespace CuttingPlane

/-- What a set has noted are the first constraints it owns of the model it registered last. -/
def Notes (models : ℕ → Model α) (id : ℕ) (p : CuttingPlane α) : Prop :=
  ∀ m, p.model = some m →
    ∃ k ≤ (models m).uncertain.length, p.indices = (models m).ownedBelow id k

variable {models : ℕ → Model α} {id m k : ℕ} {p : CuttingPlane α}

/-- The next constraint is noted unless it was, if all constraints before it are. -/
theorem Notes.register (h : p.Notes models id) (hk : k < (models m).uncertain.length)
    (howner : (models m).setFor k = id)
    (hprev : ∀ i < k, (models m).setFor i = id → p.model = some m ∧ (i : Int) ∈ p.indices) :
    (p.register m k).Notes models id := by
  intro m' hm'
  by_cases hmodel : p.model = some m
  · obtain ⟨n, hn, hindices⟩ := h m hmodel
    by_cases hmem : (k : Int) ∈ p.indices
    · rw [register_of_mem hmodel hmem] at hm' ⊢
      exact h m' hm'
    · have heq : p.register m k = { p with indices := p.indices ++ [(k : Int)] } := by
        simp [CuttingPlane.register, hmodel, hmem]
      rw [heq] at hm' ⊢
      obtain rfl := Option.some.inj (hmodel.symm.trans hm')
      have hnk : n ≤ k := by
        by_contra hlt
        exact hmem (hindices ▸ Model.mem_ownedBelow.mpr ⟨not_le.mp hlt, howner⟩)
      have hsame : (models m).ownedBelow id k = (models m).ownedBelow id n :=
        Model.ownedBelow_eq hnk fun i hi hown =>
          (Model.mem_ownedBelow.mp (hindices ▸ (hprev i hi hown).2)).1
      exact ⟨k + 1, hk, by rw [Model.ownedBelow_succ, if_pos howner, hsame, ← hindices]⟩
  · have heq : p.register m k = { p with model := some m, indices := [(k : Int)] } := by
      simp [CuttingPlane.register, hmodel]
    rw [heq] at hm' ⊢
    obtain rfl := Option.some.inj hm'
    have hnone : (models m).ownedBelow id k = (models m).ownedBelow id 0 :=
      Model.ownedBelow_eq (Nat.zero_le k) fun i hi hown => absurd (hprev i hi hown).1 hmodel
    exact ⟨k + 1, hk, by rw [Model.ownedBelow_succ, if_pos howner, hnone]; rfl⟩

theorem Notes.foldl_register (h : p.Notes models id) (hk : k ≤ (models m).uncertain.length) :
    (((models m).ownedBelow id k).foldl (fun p i => p.register m i) p).Notes models id := by
  induction k with
  | zero => exact h
  | succ k ih =>
    have ih := ih (Nat.le_of_succ_le hk)
    rw [Model.ownedBelow_succ]
    split_ifs with howner
    · rw [List.foldl_append]
      refine ih.register hk howner fun i hi hown => ?_
      have hmem := Model.mem_ownedBelow.mpr ⟨hi, hown⟩
      exact ⟨model_foldl_register (List.ne_nil_of_mem hmem) p m,
        (mem_indices_foldl_register m _ p).1 _ hmem⟩
    · rwa [List.append_nil]

/-- After all registrations a set that owns constraints of the model has noted exactly these. -/
theorem Notes.foldl_register_all (h : p.Notes models id) {i : ℕ}
    (hi : i < (models m).uncertain.length) (hown : (models m).setFor i = id) :
    let q := ((models m).ownedBelow id (models m).uncertain.length).foldl
      (fun p i => p.register m i) p
    q.model = some m ∧ q.indices = (models m).ownedBelow id (models m).uncertain.length := by
  intro q
  have hmem := Model.mem_ownedBelow.mpr ⟨hi, hown⟩
  have hmodel : q.model = some m := model_foldl_register (List.ne_nil_of_mem hmem) p m
  obtain ⟨k, hk, hindices⟩ := h.foldl_register (m := m) le_rfl m hmodel
  refine ⟨hmodel, hindices.trans (Model.ownedBelow_eq hk fun j hj hjown => ?_).symm⟩
  have hj := (mem_indices_foldl_register m _ p).1 _ (Model.mem_ownedBelow.mpr ⟨hj, hjown⟩)
  exact (Model.mem_ownedBelow.mp (hindices ▸ hj)).1

end CuttingPlane

/-! ## Sets -/

namespace UncertaintySet

/-- The model that a set registered last and the constraints it has noted. -/
def registration (s : UncertaintySet α) : Option (Option ℕ × List Int) :=
  s.plane?.map fun p => (p.model, p.indices)

/-- What a set has noted are the first constraints it owns of the model it registered last. -/
def Notes (models : ℕ → Model α) (id : ℕ) (s : UncertaintySet α) : Prop :=
  ∀ p, s.plane? = some p → p.Notes models id

variable {models : ℕ → Model α} {id m k : ℕ} {s t : UncertaintySet α}

theorem Notes.of_registration_eq (hs : s.Notes models id)
    (h : t.registration = s.registration) : t.Notes models id := by
  intro p hp m hm
  rw [registration, registration, hp] at h
  obtain ⟨q, hq, heq⟩ := Option.map_eq_some_iff.mp h.symm
  obtain ⟨hmodel, hindices⟩ := Prod.mk.inj heq
  rw [← hindices]
  exact hs q hq m (hmodel.trans hm)

theorem Notes.registered (h : s.Notes models id) (hk : k ≤ (models m).uncertain.length) :
    (registered m s ((models m).ownedBelow id k)).Notes models id := by
  intro p hp
  cases s with
  | bare | scripted => cases hp
  | polyhedral q d | budget q b =>
    obtain rfl := Option.some.inj hp
    exact (h q rfl).foldl_register hk

/-- After all registrations a set that owns constraints of the model has noted exactly these. -/
theorem Notes.registration_registered (h : s.Notes models id) (hs : s.plane?.isSome = true) {i : ℕ}
    (hi : i < (models m).uncertain.length) (hown : (models m).setFor i = id) :
    (UncertaintySet.registered m s
      ((models m).ownedBelow id (models m).uncertain.length)).registration
      = some (some m, (models m).ownedBelow id (models m).uncertain.length) := by
  cases s with
  | bare | scripted => cases hs
  | polyhedral q d | budget q b =>
    obtain ⟨hmodel, hindices⟩ := (h q rfl).foldl_register_all hi hown
    exact congrArg some (Prod.ext hmodel hindices)

/-! ### Phases -/

variable [Scalar α]

/-- What no phase after the registration changes. -/
def record (s : UncertaintySet α) : UncertaintySet α × Option (Option ℕ × List Int) :=
  (s.core, s.registration)

theorem Notes.of_record_eq (hs : s.Notes models id) (h : t.record = s.record) :
    t.Notes models id :=
  hs.of_registration_eq (congrArg Prod.snd h)

theorem isSome_plane?_core (s : UncertaintySet α) : s.core.plane?.isSome = s.plane?.isSome := by
  cases s <;> rfl

theorem core_register (model : Model α) (i : Int) (prefs : Preferences α)
    (s : UncertaintySet α) : ((register model i prefs).perform s).2.core = s.core := by
  cases s with
  | bare | scripted => rfl
  | polyhedral p d | budget p b =>
    rw [perform_register rfl]
    split
    · split <;> simp
    · rfl

/-- A setup takes preferences, forms and data anew. -/
theorem snd_setupPlane {δ : Type} {model : Model α} {prefs : Preferences α} {p : CuttingPlane α}
    {d : δ} {c : CuttingPlane α → δ → UncertaintySet α}
    {a : CuttingPlane α → Action δ (Fault α) Unit} (T : δ → Prop) (Q : UncertaintySet α → Prop)
    (hd : T d) (ha : ∀ q, T ((a q).perform d).2)
    (hQ : ∀ q u, q.renewed = p.renewed → T u → Q (c q u)) :
    Q ((setupPlane model prefs p d c a).perform s).2 := by
  unfold setupPlane
  refine perform_bind_snd (hQ _ _ rfl hd) fun _ t ht => ?_
  obtain rfl := yields_set.mp ht
  refine perform_bind_snd (hQ _ _ rfl hd) fun forms _ _ => ?_
  refine perform_bind_snd (hQ _ _ rfl hd) fun _ _ _ => ?_
  exact hQ _ _ rfl (ha _)

theorem keeps_setupBudget (kindName : String) (model : Model α) (forms : List (SparseMatrix α))
    (b : Budget α) : { ((Budget.setup kindName model forms).perform b).2 with data := none }
      = { b with data := none } := by
  unfold Budget.setup
  rw [perform_get_bind]
  refine Keeps.bind (P := fun t => { t with data := none } = { b with data := none })
    (keeps_lift _) (fun nominal => (keeps_lift _).bind fun deviation => ?_) b rfl
  split
  · exact keeps_throw _
  · exact fun _ _ => rfl

theorem registration_eq_of_renewed {p q : CuttingPlane α} (h : q.renewed = p.renewed) :
    (q.model, q.indices) = (p.model, p.indices) :=
  Prod.ext (congrArg CuttingPlane.model h :) (CuttingPlane.indices_eq h)

theorem record_setup (model : Model α) (report : Bool) (prefs : Preferences α)
    (s : UncertaintySet α) : ((setup model report prefs).perform s).2.record = s.record := by
  unfold setup
  rw [perform_get_bind]
  cases s with
  | bare | scripted => rfl
  | polyhedral p d =>
    refine snd_setupPlane (c := polyhedral)
      (a := fun q => Polyhedral.setup model prefs q.preferCuts.isTrue)
      (fun u => u.constraints = d.constraints) (fun t => t.record = (polyhedral p d).record) rfl
      (fun q => ?_) fun q u hq hu => ?_
    · rw [Polyhedral.perform_setup]
      split <;> rfl
    · exact Prod.ext (by simp [record, core, hu])
        (congrArg some (registration_eq_of_renewed hq))
  | budget p b =>
    refine snd_setupPlane (c := budget)
      (a := fun q => Budget.setup (budget q b).kindName model (q.forms.map Prod.snd))
      (fun u => { u with data := none } = { b with data := none })
      (fun t => t.record = (budget p b).record) rfl (fun q => keeps_setupBudget _ _ _ _)
      fun q u hq hu => ?_
    exact Prod.ext (by simp [record, core, hu]) (congrArg some (registration_eq_of_renewed hq))

/-- A reformulation changes the set of a bench only by noting the call. -/
theorem record_reform (model : Model α) (is : List Int) (b : Bench α) :
    ((reform model is).perform b).2.set.record = b.set.record := by
  have hmaster : ∀ {β : Type} (a : Action (Master α × Supply) (Fault α) β),
      (onMaster a).Keeps fun c => c.set.record = b.set.record := fun a =>
    Keeps.onState fun _ hc => hc
  unfold reform
  rw [perform_get_bind]
  obtain ⟨s, m, supply⟩ := b
  cases s with
  | bare => rfl
  | polyhedral p d | budget p d =>
    exact Keeps.ite (keeps_pure _) ((hmaster _).bind fun _ => keeps_pure _) _ rfl
  | scripted ps d => exact Keeps.bind (fun _ _ => rfl) (fun _ => hmaster _) _ rfl

theorem record_cuts (model : Model α) (values : Valuation α) (is : List Int) (solver : Solver α)
    (s : UncertaintySet α) : ((cuts model values is solver).perform s).2.record = s.record := by
  unfold cuts
  rw [perform_get_bind]
  cases s <;> rfl

theorem record_scenarios (model : Model α) (values : Valuation α) (is : List Int)
    (solver : Solver α) (s : UncertaintySet α) :
    ((scenarios model values is solver).perform s).2.record = s.record := by
  have hanswer : ∀ e : Except (Fault α) (List (Scenario α)),
      (do return (← e).map some : Action (UncertaintySet α) (Fault α) _).Keeps
        fun t => t.record = s.record := fun e => (keeps_lift e).bind fun _ => keeps_pure _
  unfold scenarios
  rw [perform_get_bind]
  cases s with
  | bare | scripted => rfl
  | polyhedral p d | budget p b => exact hanswer _ _ rfl

end UncertaintySet

/-! ## Workspaces -/

namespace Workspace

variable {w w' : Workspace α} {β : Type} {id : ℕ} {u : UncertaintySet α}

theorem map_sets_withSet (f : UncertaintySet α → β) (h : f u = f (w.uncertaintySet id)) :
    (w.withSet id u).sets.map f = w.sets.map f := by
  have hset : ∀ v, (w.withSet id v).sets.map f = (w.sets.map f).set id (f v) := fun v =>
    List.map_set
  rw [hset, h, ← hset, withSet_uncertaintySet]

theorem uncertaintySet_congr {f : UncertaintySet α → β} (h : w'.sets.map f = w.sets.map f)
    (id : ℕ) : f (w'.uncertaintySet id) = f (w.uncertaintySet id) := by
  have hget : ∀ v : Workspace α,
      f (v.uncertaintySet id) = ((v.sets.map f)[id]?).getD (f (.bare [])) := fun v => by
    rw [uncertaintySet, List.getElem?_map]
    cases v.sets[id]? <;> rfl
  rw [hget, h, ← hget]

end Workspace

/-! ## Registrations that fail -/

/-- Registrations leave a number of them behind, also if one of them fails, provided that a failing
one adds none. -/
theorem Participants.exists_perform_registerAll {σ κ δ τ : Type} [BEq κ]
    {p : Participants α σ κ δ τ} {s : σ} (P : ℕ → σ → Prop) (start : P 0 s)
    (step : ∀ k < p.count, ∀ s t, P k s → (p.register (p.owner k) k).Yields s ⟨⟩ t → P (k + 1) t)
    (fail : ∀ k < p.count, ∀ s e t, P k s →
      (p.register (p.owner k) k).perform s = (.error e, t) → P k t) :
    ∃ k ≤ p.count, P k (p.registerAll.perform s).2 := by
  have hfold : ∀ n ≤ p.count, ∃ k ≤ p.count,
      P k (((List.range n).foldlM p.registerAt .empty).perform s).2 := by
    intro n
    induction n with
    | zero => exact fun _ => ⟨0, Nat.zero_le _, start⟩
    | succ n ih =>
      intro hn
      have hle := Nat.le_of_succ_le hn
      simp only [List.range_succ, List.foldlM_append, List.foldlM_cons, List.foldlM_nil, bind_pure]
      refine perform_bind_snd (P := fun t => ∃ k ≤ p.count, P k t) (ih hle) fun r t hr => ?_
      obtain ⟨rfl, hP⟩ := Yields.registrations P start step hle hr
      refine perform_bind_snd (P := fun t => ∃ k ≤ p.count, P k t)
        (keeps_require (P := fun t => ∃ k ≤ p.count, P k t) _ _ t ⟨n, hle, hP⟩)
        fun _ _ hrequire => ?_
      obtain ⟨-, rfl⟩ := yields_require.mp hrequire
      rw [perform_bind, Registry.register_ofOwner]
      rcases hregister : (p.register (p.owner n) n).perform t with ⟨e | _, u⟩
      exacts [⟨n, hle, fail n hn t e u hP hregister⟩, ⟨n + 1, hn, step n hn t u hP hregister⟩]
  refine perform_bind_snd (P := fun t => ∃ k ≤ p.count, P k t) (hfold _ le_rfl) fun r t hr => ?_
  obtain ⟨rfl, hP⟩ := Yields.registrations P start step le_rfl hr
  simp only [Registry.missing_ofOwner]
  exact ⟨p.count, le_rfl, hP⟩

/-! ## Sessions -/

namespace Session

section Records

variable {w : Workspace α} {β γ : Type} {f : UncertaintySet α → γ} {l : List γ} {id : ℕ}

theorem keeps_onSet {a : Action (UncertaintySet α) (Fault α) β}
    (h : ∀ s, f (a.perform s).2 = f s) :
    (onSet id a).Keeps fun s => s.space.sets.map f = l :=
  Keeps.onState fun _ hs => (Workspace.map_sets_withSet f (h _)).trans hs

theorem keeps_onBench [Scalar α] {a : Action (UncertaintySet.Bench α) (Fault α) β}
    (h : ∀ b, f (a.perform b).2.set = f b.set) :
    (onBench id a).Keeps fun s => s.space.sets.map f = l :=
  Keeps.onState fun _ hs => (Workspace.map_sets_withSet f (h _)).trans hs

end Records

variable [Scalar α] {w : Workspace α} {model : Model α} {report : Bool} {prefs : Preferences α}
  {env : Environment α}

/-- The registration leaves the sets as they were built and constrained. -/
theorem keeps_core (cores : List (UncertaintySet α)) :
    (w.participants model report prefs env).registerAll.Keeps
      fun s => s.space.sets.map UncertaintySet.core = cores :=
  Participants.keeps_registerAll fun _ _ => keeps_onSet (UncertaintySet.core_register _ _ _)

theorem core_of_record {sets sets' : List (UncertaintySet α)}
    (h : sets'.map UncertaintySet.record = sets.map UncertaintySet.record) :
    sets'.map UncertaintySet.core = sets.map UncertaintySet.core := by
  simpa [Function.comp_def, UncertaintySet.record] using congrArg (List.map Prod.fst) h

/-- From the setup on, sets keep their records. -/
theorem keeps_record (r : Registry ℕ ℕ) (limit : ℕ)
    (records : List (UncertaintySet α × Option (Option ℕ × List Int))) :
    ((w.participants model report prefs env).resolveRegistered r limit report).Keeps
      fun s => s.space.sets.map UncertaintySet.record = records :=
  Participants.keeps_resolveRegistered r
    (fun _ => keeps_onSet (UncertaintySet.record_setup model report prefs))
    (keeps_modify fun _ hs => hs)
    (fun _ _ => keeps_onBench (UncertaintySet.record_reform model _))
    (keeps_solve fun _ _ _ hs => hs)
    (fun _ _ => Keeps.get_bind fun _ => keeps_onSet (UncertaintySet.record_cuts model _ _ _))
    (fun _ => keeps_modify fun _ hs => hs)
    (fun _ _ => Keeps.get_bind fun _ => keeps_onSet (UncertaintySet.record_scenarios model _ _ _))
    limit report

omit [Scalar α] in
/-- A set that stays as it is after the first registrations. -/
theorem Registered.withSet {s : Session α} {k id : ℕ} {u : UncertaintySet α}
    (h : Registered w model k s)
    (hu : (w.uncertaintySet id).plane?.isSome = true → u = setAfter w model k id) :
    Registered w model k { s with space := s.space.withSet id u } where
  values := h.values
  supply := h.supply
  sets j hj := by
    by_cases hne : j = id
    · subst hne
      rw [Workspace.uncertaintySet_withSet_self (h.isSome_plane? hj), hu hj]
    · rw [Workspace.uncertaintySet_withSet_of_ne hne, h.sets j hj]

/-- What registrations leave, also if one of them fails. -/
theorem registered_of_perform (w : Workspace α) (model : Model α) (report : Bool)
    (prefs : Preferences α) (env : Environment α) (master : Option (Master α)) :
    ∃ k ≤ model.uncertain.length, Registered w model k
      ((w.participants model report prefs env).registerAll.perform ⟨w, master⟩).2 := by
  refine Participants.exists_perform_registerAll
    (p := w.participants model report prefs env) (s := ⟨w, master⟩) (Registered w model)
    ⟨rfl, rfl, fun id _ => (setAfter_zero w model id).symm⟩ (fun k hk s t hs hy => ?_)
    fun k _ s e t hs hy => ?_
  · obtain ⟨u, hu, rfl⟩ := yields_register.mp hy
    refine hs.succ fun hplane => ?_
    rw [setAfter_succ_self, ← hs.sets _ hplane]
    exact ((UncertaintySet.yields_register (hs.isSome_plane? hplane) hk).mp hu).2
  · obtain ⟨he, rfl⟩ := Prod.mk.inj hy
    refine hs.withSet fun hplane => ?_
    rw [← hs.sets _ hplane]
    exact UncertaintySet.snd_register_of_error (hs.isSome_plane? hplane) he

/-- What sets have noted after the registration, also if it fails. -/
theorem notes_registerAll {w : Workspace α} {id : ℕ} (hid : (w.model id).id = id)
    (hw : ∀ j, (w.uncertaintySet j).Notes w.model j) (report : Bool) (prefs : Preferences α)
    (env : Environment α) (master : Option (Master α)) (j : ℕ) :
    (((w.participants (w.model id) report prefs env).registerAll.perform
      ⟨w, master⟩).2.space.uncertaintySet j).Notes w.model j := by
  obtain ⟨k, hk, hreg⟩ := registered_of_perform w (w.model id) report prefs env master
  have hcores : ((w.participants (w.model id) report prefs env).registerAll.perform
      ⟨w, master⟩).2.space.sets.map UncertaintySet.core = w.sets.map UncertaintySet.core :=
    keeps_core _ ⟨w, master⟩ rfl
  intro p hp
  have hplane : (w.uncertaintySet j).plane?.isSome = true := by
    rw [← UncertaintySet.isSome_plane?_core, ← Workspace.uncertaintySet_congr hcores,
      UncertaintySet.isSome_plane?_core, hp]
    rfl
  rw [hreg.sets j hplane, setAfter, hid] at hp
  exact (hw j).registered (m := id) hk p hp

end Session

/-! ## Resolutions -/

namespace Workspace

variable [Scalar α]

/-- Registration and what follows it leave the state that a run of the whole leaves. -/
theorem world_runModel (w : Workspace α) (id : ℕ) (settings : Settings α) (prefs : Preferences α)
    (env : Environment α) :
    let p := w.participants (w.model id) settings.reportScenarios.isTrue prefs env
    (w.runModel id settings prefs env).2.world = ((p.registerAll >>= fun r =>
      p.resolveRegistered r settings.rounds settings.reportScenarios.isTrue).perform
        ⟨w, none⟩).2 := by
  intro p
  have hresolve := p.perform_resolve settings.rounds settings.reportScenarios.isTrue
    ⟨⟨w, none⟩, none⟩
  unfold runModel run
  rw [perform_get_bind, perform_bind, hresolve]
  generalize (p.registerAll >>= fun r => p.resolveRegistered r settings.rounds
    settings.reportScenarios.isTrue).perform ⟨w, none⟩ = q
  rcases q with ⟨_ | _, _⟩ <;> rfl

/-- A resolution leaves the sets as they were built and constrained. -/
theorem core_runModel (w : Workspace α) (id : ℕ) (settings : Settings α) (prefs : Preferences α)
    (env : Environment α) :
    (w.runModel id settings prefs env).2.world.space.sets.map UncertaintySet.core
      = w.sets.map UncertaintySet.core := by
  have hregister : (w.participants (w.model id) settings.reportScenarios.isTrue prefs
      env).registerAll.Keeps _ := Session.keeps_core (w.sets.map UncertaintySet.core)
  rw [world_runModel]
  exact perform_bind_snd (P := fun s : Session α => s.space.sets.map _ = _)
    (hregister ⟨w, none⟩ rfl) fun r t hr =>
      (Session.core_of_record (Session.keeps_record r settings.rounds _ t rfl)).trans
        (hregister.yields hr rfl)

/-- What sets have noted after a resolution are the first constraints they own of a model, if it
was so before. -/
theorem notes_runModel {w : Workspace α} {id : ℕ} (hid : (w.model id).id = id)
    (hw : ∀ j, (w.uncertaintySet j).Notes w.model j) (settings : Settings α)
    (prefs : Preferences α) (env : Environment α) (j : ℕ) :
    ((w.runModel id settings prefs env).2.world.space.uncertaintySet j).Notes w.model j := by
  have hregister :=
    Session.notes_registerAll hid hw settings.reportScenarios.isTrue prefs env none j
  rw [world_runModel]
  refine perform_bind_snd
    (P := fun s : Session α => (s.space.uncertaintySet j).Notes w.model j) hregister
    fun r t hr => ?_
  rw [show _ = (_, t) from hr] at hregister
  refine hregister.of_record_eq (uncertaintySet_congr ?_ j)
  exact Session.keeps_record r settings.rounds _ t rfl

end Workspace

end RobustOpt
