import RobustOpt.Proofs.Report
import RobustOpt.Proofs.Robust
import RobustOpt.Resolution.Solve

/-!
# The sets of a session

What registration, setup and reformulation do to a session whose sets are polyhedral or budget
sets: each set ends up ready for the constraints it owns, and the master is that of the model with
constraints that encode what was reformulated.

## Main definitions

* `Model.owned`: the constraints a set is responsible for.
* `Environment.covered`, `Environment.rest`: those it reformulates, and those that remain.
* `Session.Ready`: all sets are ready for their constraints.

## Main statements

* `Session.ready_of_prepare`: a preparation leaves all sets ready.
* `Session.exists_reformAll`: what the reformulations add to the master.
-/

namespace RobustOpt

/-! ## Sets of a workspace -/

namespace Workspace

variable {α : Type} {w : Workspace α}

theorem uncertaintySet_withSet_of_ne {id j : ℕ} (h : j ≠ id) (u : UncertaintySet α) :
    (w.withSet id u).uncertaintySet j = w.uncertaintySet j := by
  simp [uncertaintySet, withSet, List.getElem?_set_ne (Ne.symm h)]

/-- A set of one of the two kinds is one that was added to the workspace. -/
theorem uncertaintySet_withSet_self {id : ℕ} (h : (w.uncertaintySet id).plane?.isSome = true)
    (u : UncertaintySet α) : (w.withSet id u).uncertaintySet id = u := by
  have hid : id < w.sets.length := by
    by_contra hlen
    simp [uncertaintySet, List.getElem?_eq_none (not_lt.mp hlen), UncertaintySet.plane?] at h
  simp [uncertaintySet, withSet, hid]

@[simp] theorem withSet_uncertaintySet (id : ℕ) : w.withSet id (w.uncertaintySet id) = w := by
  unfold withSet uncertaintySet
  rcases lt_or_ge id w.sets.length with h | h
  · simp [h]
  · rw [List.set_eq_of_length_le h]

end Workspace

namespace Session

theorem yields_onSet {α β : Type} {id : ℕ} {a : Action (UncertaintySet α) (Fault α) β}
    {s t : Session α} {b : β} :
    (onSet id a).Yields s b t ↔ ∃ u, a.Yields (s.space.uncertaintySet id) b u
      ∧ { s with space := s.space.withSet id u } = t :=
  Action.yields_onState

theorem yields_onBench {β : Type} {id : ℕ}
    {a : Action (UncertaintySet.Bench Extended) (Fault Extended) β} {s t : Session Extended}
    {b : β} :
    (onBench id a).Yields s b t ↔ ∃ u m next,
      a.Yields ⟨s.space.uncertaintySet id, s.currentMaster, s.space.supply⟩ b ⟨u, m, next⟩
      ∧ { space := { s.space.withSet id u with supply := next }, master := some m } = t := by
  rw [onBench, Action.yields_onState]
  constructor
  · rintro ⟨⟨u, m, next⟩, h, rfl⟩
    exact ⟨u, m, next, h, rfl⟩
  · rintro ⟨u, m, next, h, rfl⟩
    exact ⟨⟨u, m, next⟩, h, rfl⟩

section Calls

variable {α : Type} [Scalar α] {w : Workspace α} {model : Model α} {report : Bool}
  {prefs : Preferences α} {env : Environment α} {s t : Session α} {id i : ℕ} {r : Unit}

theorem yields_register :
    ((w.participants model report prefs env).register id i).Yields s r t ↔
      ∃ u, (UncertaintySet.register model i prefs).Yields (s.space.uncertaintySet id) r u
        ∧ { s with space := s.space.withSet id u } = t :=
  yields_onSet

theorem yields_setup :
    ((w.participants model report prefs env).setup id).Yields s r t ↔
      ∃ u, (UncertaintySet.setup model report prefs).Yields (s.space.uncertaintySet id) r u
        ∧ { s with space := s.space.withSet id u } = t :=
  yields_onSet

end Calls

end Session

/-! ## Owned constraints -/

/-- The constraints of a model that a set is responsible for. -/
def Model.owned (model : Model Extended) (id : ℕ) : List ℕ :=
  (List.range model.uncertain.length).filter fun i => model.setFor i == id

theorem Model.mem_owned {model : Model Extended} {id i : ℕ} :
    i ∈ model.owned id ↔ i < model.uncertain.length ∧ model.setFor i = id := by
  simp [owned]

/-- The constraints that a set reformulates. -/
def Environment.covered (env : Environment Extended) (model : Model Extended)
    (prefs : Preferences Extended) (id : ℕ) : List ℤ :=
  UncertaintySet.reformulated prefs ((env.portion id (model.owned id)).map Int.ofNat)

/-- The constraints of a set that remain for cuts. -/
def Environment.rest (env : Environment Extended) (model : Model Extended)
    (prefs : Preferences Extended) (id : ℕ) : List ℕ :=
  (model.owned id).filter fun i => !(env.covered model prefs id).contains (i : ℤ)

/-- The registrations of a model. -/
abbrev Model.registry (model : Model Extended) : Registry ℕ ℕ :=
  .ofOwner model.setFor model.uncertain.length

/-- What remains of each set of a model after the reformulations. -/
def Environment.remaining (env : Environment Extended) (model : Model Extended)
    (prefs : Preferences Extended) : List (ℕ × List ℕ) :=
  model.registry.owners.map fun id => (id, env.rest model prefs id)

theorem Model.indices_registry (model : Model Extended) (id : ℕ) :
    model.registry.indices id = model.owned id :=
  Registry.indices_ofOwner _ _ _

theorem Model.setFor_mem_owners {model : Model Extended} {i : ℕ} (hi : i < model.uncertain.length) :
    model.setFor i ∈ model.registry.owners :=
  Registry.mem_owners_ofOwner.mpr ⟨i, hi, rfl⟩

namespace Session

variable {w : Workspace Extended} {model : Model Extended} {prefs : Preferences Extended}
  {report : Bool} {env : Environment Extended} {s t : Session Extended}

/-! ## Registration -/

section Registered

variable {α : Type} {w : Workspace α} {model : Model α} {s : Session α} {k : ℕ}

/-- A set after the first constraints of a model were registered. -/
def setAfter (w : Workspace α) (model : Model α) (k id : ℕ) : UncertaintySet α :=
  UncertaintySet.registered model.id (w.uncertaintySet id)
    (((List.range k).filter fun i => model.setFor i == id).map Int.ofNat)

/-- A session in which the first constraints of a model were registered. -/
structure Registered (w : Workspace α) (model : Model α) (k : ℕ) (s : Session α) : Prop where
  values : s.space.values = w.values
  supply : s.space.supply = w.supply
  sets : ∀ id, (w.uncertaintySet id).plane?.isSome = true →
    s.space.uncertaintySet id = setAfter w model k id

theorem setAfter_zero (w : Workspace α) (model : Model α) (id : ℕ) :
    setAfter w model 0 id = w.uncertaintySet id :=
  UncertaintySet.registered_nil _ _

theorem setAfter_succ_self (w : Workspace α) (model : Model α) (k : ℕ) :
    setAfter w model (k + 1) (model.setFor k)
      = UncertaintySet.registered model.id (setAfter w model k (model.setFor k)) [(k : ℤ)] := by
  simp [setAfter, List.range_succ, UncertaintySet.registered_append]

theorem setAfter_succ_of_ne (w : Workspace α) {model : Model α} {k id : ℕ}
    (h : model.setFor k ≠ id) : setAfter w model (k + 1) id = setAfter w model k id := by
  simp [setAfter, List.range_succ, h]

theorem isSome_plane?_setAfter {id : ℕ} :
    (setAfter w model k id).plane?.isSome = (w.uncertaintySet id).plane?.isSome :=
  UncertaintySet.isSome_plane?_registered _ _ _

theorem Registered.isSome_plane? (h : Registered w model k s) {id : ℕ}
    (hid : (w.uncertaintySet id).plane?.isSome = true) :
    (s.space.uncertaintySet id).plane?.isSome = true := by
  rw [h.sets id hid, isSome_plane?_setAfter, hid]

/-- Registering a constraint to a set other than `id` does not concern `id`. -/
theorem Registered.succ (h : Registered w model k s) {u : UncertaintySet α}
    (hu : (w.uncertaintySet (model.setFor k)).plane?.isSome = true →
      u = setAfter w model (k + 1) (model.setFor k)) :
    Registered w model (k + 1) { s with space := s.space.withSet (model.setFor k) u } where
  values := h.values
  supply := h.supply
  sets id hid := by
    by_cases hne : id = model.setFor k
    · subst hne
      rw [Workspace.uncertaintySet_withSet_self (h.isSome_plane? hid), hu hid]
    · rw [Workspace.uncertaintySet_withSet_of_ne hne, h.sets id hid,
        setAfter_succ_of_ne w (Ne.symm hne)]

/-- A successful registration. -/
theorem registered_of_yields [Scalar α] {report : Bool} {prefs : Preferences α}
    {env : Environment α} {r : Registry ℕ ℕ} {master : Option (Master α)}
    (h : (w.participants model report prefs env).registerAll.Yields ⟨w, master⟩ r s) :
    r = .ofOwner model.setFor model.uncertain.length ∧ Registered w model model.uncertain.length s
      ∧ ∀ i, (hi : i < model.uncertain.length) →
        (w.uncertaintySet (model.setFor i)).plane?.isSome = true →
        (model.uncertain[i]).constraint.hasDecisions = true := by
  obtain ⟨hr, hreg, hdec⟩ := Participants.Yields.registerAll
    (fun k s => Registered w model k s ∧ ∀ i < k, (hi : i < model.uncertain.length) →
      (w.uncertaintySet (model.setFor i)).plane?.isSome = true →
      (model.uncertain[i]).constraint.hasDecisions = true) h
    ⟨⟨rfl, rfl, fun id _ => (setAfter_zero w model id).symm⟩, by simp⟩ (by
      rintro k hk s t ⟨hreg, hdec⟩ hy
      obtain ⟨u, hu, rfl⟩ := yields_register.mp hy
      have hu' : (w.uncertaintySet (model.setFor k)).plane?.isSome = true →
          (model.uncertain[k]).constraint.hasDecisions = true
            ∧ u = setAfter w model (k + 1) (model.setFor k) := by
        intro hplane
        rw [setAfter_succ_self, ← hreg.sets _ hplane]
        exact (UncertaintySet.yields_register (hreg.isSome_plane? hplane) hk).mp hu
      refine ⟨hreg.succ fun hplane => (hu' hplane).2, fun i hi hlen hplane => ?_⟩
      rcases Nat.lt_succ_iff_lt_or_eq.mp hi with hi | rfl
      exacts [hdec i hi hlen hplane, (hu' hplane).1])
  exact ⟨hr, hreg, fun i hi => hdec i hi hi⟩

end Registered

theorem isGeometric_setAfter {k id : ℕ} (h : (w.uncertaintySet id).IsGeometric) :
    (setAfter w model k id).IsGeometric :=
  (UncertaintySet.isGeometric_of_core (UncertaintySet.core_registered _ _ _)).mpr h

theorem Registered.isGeometric {k id : ℕ} (h : Registered w model k s)
    (hid : (w.uncertaintySet id).IsGeometric) : (s.space.uncertaintySet id).IsGeometric := by
  rw [h.sets id hid]
  exact isGeometric_setAfter hid

/-- A registration succeeds if all sets are of the two kinds and all constraints have decision
variables. -/
theorem exists_registerAll (prefs : Preferences Extended) (report : Bool)
    (env : Environment Extended) (master : Option (Master Extended))
    (hgeo : ∀ i < model.uncertain.length, (w.uncertaintySet (model.setFor i)).IsGeometric)
    (hdec : ∀ i, (hi : i < model.uncertain.length) →
      (model.uncertain[i]).constraint.hasDecisions = true) :
    ∃ t, (w.participants model report prefs env).registerAll.Yields ⟨w, master⟩ model.registry t
      ∧ Registered w model model.uncertain.length t := by
  refine Participants.exists_registerAll (Registered w model)
    ⟨rfl, rfl, fun id _ => by simp [setAfter]⟩ fun k hk s hreg => ⟨(hgeo k hk).supports _, ?_⟩
  refine ⟨_, yields_register.mpr ⟨_, ?_, rfl⟩, hreg.succ fun _ => rfl⟩
  rw [setAfter_succ_self, ← hreg.sets _ (hgeo k hk)]
  exact (UncertaintySet.yields_register (hreg.isGeometric (hgeo k hk)) hk).mpr ⟨hdec k hk, rfl⟩

/-- Every registered constraint is noted by its set. -/
theorem mem_indices_setAfter {i k : ℕ} (hi : i < k)
    (h : (w.uncertaintySet (model.setFor i)).IsGeometric) :
    ∃ plane, (setAfter w model k (model.setFor i)).plane? = some plane
      ∧ (i : ℤ) ∈ plane.indices := by
  have hmem : (i : ℤ) ∈ ((List.range k).filter fun j => model.setFor j == model.setFor i).map
      Int.ofNat :=
    List.mem_map.mpr ⟨i, List.mem_filter.mpr ⟨List.mem_range.mpr hi, by simp⟩, rfl⟩
  unfold setAfter UncertaintySet.registered
  cases hset : w.uncertaintySet (model.setFor i) with
  | bare | scripted =>
    rw [hset] at h
    cases h
  | polyhedral plane d =>
    exact ⟨_, rfl, (CuttingPlane.mem_indices_foldl_register model.id _ plane).1 _ hmem⟩
  | budget plane b =>
    exact ⟨_, rfl, (CuttingPlane.mem_indices_foldl_register model.id _ plane).1 _ hmem⟩

/-! ## Setup -/

section SetUp

variable {α : Type} {w : Workspace α} {model : Model α} {s t : Session α} {done : List ℕ}
  {R R' : UncertaintySet α → UncertaintySet α → Prop}

/-- A session in which, after the registration, the sets `done` were set up, which changed each of
them as `R` says. -/
structure SetUp (w : Workspace α) (model : Model α)
    (R : UncertaintySet α → UncertaintySet α → Prop) (done : List ℕ) (s : Session α) : Prop where
  values : s.space.values = w.values
  supply : s.space.supply = w.supply
  before : ∀ id, (w.uncertaintySet id).plane?.isSome = true → id ∉ done →
    s.space.uncertaintySet id = setAfter w model model.uncertain.length id
  after : ∀ id, (w.uncertaintySet id).plane?.isSome = true → id ∈ done →
    R (setAfter w model model.uncertain.length id) (s.space.uncertaintySet id)

theorem Registered.setUp_nil (h : Registered w model model.uncertain.length s) :
    SetUp w model R [] s :=
  ⟨h.values, h.supply, fun id hid _ => h.sets id hid, by simp⟩

theorem SetUp.mono (h : SetUp w model R done s)
    (hR : ∀ u v, u.plane?.isSome = true → R u v → R' u v) : SetUp w model R' done s :=
  ⟨h.values, h.supply, h.before, fun id hid hdone =>
    hR _ _ (isSome_plane?_setAfter.trans hid) (h.after id hid hdone)⟩

/-- Setting up one more set. -/
theorem SetUp.step {k : ℕ} (h : SetUp w model R done s) (hk : k ∉ done) {u : UncertaintySet α}
    (hu : (w.uncertaintySet k).plane?.isSome = true →
      R (setAfter w model model.uncertain.length k) u) :
    SetUp w model R (done ++ [k]) { s with space := s.space.withSet k u } where
  values := h.values
  supply := h.supply
  before id hid hnot := by
    rw [List.mem_append, not_or, List.mem_singleton] at hnot
    rw [Workspace.uncertaintySet_withSet_of_ne hnot.2, h.before id hid hnot.1]
  after id hid hmem := by
    by_cases hne : id = k
    · subst hne
      have hplane : (s.space.uncertaintySet id).plane?.isSome = true := by
        rw [h.before id hid hk, isSome_plane?_setAfter, hid]
      rw [Workspace.uncertaintySet_withSet_self hplane]
      exact hu hid
    · rw [Workspace.uncertaintySet_withSet_of_ne hne]
      exact h.after id hid (by simpa [hne] using hmem)

theorem notMem_of_append_singleton {done l : List ℕ} {k : ℕ} (hl : l.Nodup)
    (h : done ++ [k] <+: l) : k ∉ done := by
  have := (List.nodup_append.mp (hl.sublist h.sublist)).2.2
  exact fun hk => this k hk k (by simp) rfl

/-- A successful setup of all sets. -/
theorem setUp_of_setupAll [Scalar α] {report : Bool} {prefs : Preferences α}
    {env : Environment α} (hreg : Registered w model model.uncertain.length s)
    {r : Registry ℕ ℕ} {v : Unit}
    (h : ((w.participants model report prefs env).setupAll r).Yields s v t) :
    SetUp w model (fun u u' => (UncertaintySet.setup model report prefs).Yields u ⟨⟩ u')
      r.owners t := by
  refine Participants.Yields.setupAll (SetUp w model _) h hreg.setUp_nil ?_
  intro done k s t hinit hset hy
  have hk := notMem_of_append_singleton (Registry.nodup_firsts _) hinit
  obtain ⟨u, hu, rfl⟩ := yields_setup.mp hy
  refine hset.step hk fun hplane => ?_
  rwa [hset.before k hplane hk] at hu

end SetUp

theorem setUp_of_yields (hreg : Registered w model model.uncertain.length s) {r : Unit}
    (h : ((w.participants model report prefs env).setupAll model.registry).Yields s r t) :
    SetUp w model (UncertaintySet.SetUp model prefs) model.registry.owners t :=
  (setUp_of_setupAll hreg h).mono fun _ _ hgeo => (UncertaintySet.yields_setup hgeo).mp

/-- The setup of all sets succeeds if it does with other preferences. -/
theorem SetUp.exists_setupAll {s' : Session Extended} (prefs' : Preferences Extended)
    (report : Bool) (env : Environment Extended)
    (hgeo : ∀ i < model.uncertain.length, (w.uncertaintySet (model.setFor i)).IsGeometric)
    (h : SetUp w model (UncertaintySet.SetUp model prefs) model.registry.owners s)
    (hreg : Registered w model model.uncertain.length s') :
    ∃ t, ((w.participants model report prefs' env).setupAll model.registry).Yields s' ⟨⟩ t
      ∧ SetUp w model (UncertaintySet.SetUp model prefs') model.registry.owners t := by
  refine Participants.exists_setupAll (SetUp w model _) hreg.setUp_nil ?_
  intro done k s hinit hset
  have hk := notMem_of_append_singleton (Registry.nodup_firsts _) hinit
  have hmem : k ∈ model.registry.owners := hinit.subset (by simp)
  obtain ⟨i, hi, rfl⟩ := Registry.mem_owners_ofOwner.mp hmem
  obtain ⟨u, hu⟩ := (h.after _ (hgeo i hi) hmem).exists_for prefs'
  refine ⟨(hgeo i hi).supports _, _, yields_setup.mpr ⟨u, ?_, rfl⟩, hset.step hk fun _ => hu⟩
  rw [hset.before _ (hgeo i hi) hk]
  exact (UncertaintySet.yields_setup (isGeometric_setAfter (hgeo i hi))).mpr hu

/-- Every set of one of the two kinds is ready for the constraints it owns. -/
def Ready (w : Workspace Extended) (model : Model Extended) (prefs : Preferences Extended)
    (s : Session Extended) : Prop :=
  ∀ i < model.uncertain.length, (w.uncertaintySet (model.setFor i)).IsGeometric →
    (w.uncertaintySet (model.setFor i)).Checked →
    (s.space.uncertaintySet (model.setFor i)).core = (w.uncertaintySet (model.setFor i)).core
      ∧ ∃ plane, (s.space.uncertaintySet (model.setFor i)).Ready model prefs plane
        ∧ (i : ℤ) ∈ plane.indices

theorem SetUp.ready
    (h : SetUp w model (UncertaintySet.SetUp model prefs) model.registry.owners s)
    (hsharp : model.SharpForms) :
    Ready w model prefs s := by
  intro i hi hgeo hs
  have hset := h.after _ hgeo (Model.setFor_mem_owners hi)
  have hcore : (setAfter w model model.uncertain.length (model.setFor i)).core
      = (w.uncertaintySet (model.setFor i)).core := UncertaintySet.core_registered _ _ _
  refine ⟨hset.core_eq.trans hcore, ?_⟩
  obtain ⟨plane, hready⟩ := hset.ready ((UncertaintySet.checked_of_core hcore).mpr hs) hsharp
  refine ⟨plane, hready, ?_⟩
  obtain ⟨plane₀, plane₁, hplane₀, hplane₁, -, hindices, -⟩ := hset.plane_spec
  obtain ⟨plane₂, hplane₂, hmem⟩ := mem_indices_setAfter hi hgeo
  obtain rfl := Option.some.inj (hplane₁.symm.trans hready.plane_eq)
  obtain rfl := Option.some.inj (hplane₂.symm.trans hplane₀)
  rwa [hindices]

/-! ## Reformulation -/

theorem yields_start {r : Unit} : ((w.participants model report prefs env).start).Yields s r t ↔
    { s with master := some model.master } = t :=
  Action.yields_modify

theorem yields_reform {id : ℕ} {is : List ℕ} {r : Literal Extended} :
    ((w.participants model report prefs env).reform id is).Yields s r t ↔ ∃ u m next,
      (UncertaintySet.reform model ((env.portion id is).map Int.ofNat)).Yields
        ⟨s.space.uncertaintySet id, s.currentMaster, s.space.supply⟩ r ⟨u, m, next⟩
      ∧ { space := { s.space.withSet id u with supply := next }, master := some m } = t :=
  yields_onBench

/-- What no reformulation, solve or cut changes: the sets of the two kinds. -/
def SameSets (s t : Session Extended) : Prop :=
  ∀ id, (s.space.uncertaintySet id).IsGeometric →
    t.space.uncertaintySet id = s.space.uncertaintySet id

theorem SameSets.refl (s : Session Extended) : SameSets s s := fun _ _ => rfl

theorem SameSets.trans {u : Session Extended} (h : SameSets s t) (h' : SameSets t u) :
    SameSets s u := by
  intro id hid
  rw [h' id (by rwa [h id hid]), h id hid]

theorem Ready.of_sameSets (h : Ready w model prefs s) (hst : SameSets s t) :
    Ready w model prefs t := by
  intro i hi hgeo hwf
  obtain ⟨hcore, hplane⟩ := h i hi hgeo hwf
  rw [hst _ ((UncertaintySet.isGeometric_of_core hcore).mpr hgeo)]
  exact ⟨hcore, hplane⟩

/-- A reformulation by any set leaves the sets of the two kinds and all values as they are. -/
theorem frame_of_yields_reform {id : ℕ} {is : List ℕ} {r : Literal Extended}
    (h : ((w.participants model report prefs env).reform id is).Yields s r t) :
    SameSets s t ∧ t.space.values = s.space.values := by
  obtain ⟨u, m, next, hu, rfl⟩ := yields_reform.mp h
  refine ⟨fun j hj => ?_, rfl⟩
  by_cases hne : j = id
  · subst hne
    obtain ⟨plane, hplane⟩ := Option.isSome_iff_exists.mp hj
    obtain ⟨rfl, -⟩ := (UncertaintySet.yields_reform hplane .builtin).mp hu
    exact Workspace.uncertaintySet_withSet_self hj _
  · exact Workspace.uncertaintySet_withSet_of_ne hne u

/-- Whatever the sets are, reformulations leave those of the two kinds as they are, and what
remains of a set are constraints it owns. -/
theorem frame_of_yields_reformAll {n : ℕ} {remaining : List (ℕ × List ℕ)}
    (h : ((w.participants model report prefs env).reformAll model.registry).Yields s
      (n, remaining) t) :
    SameSets s t ∧ t.space.values = s.space.values
      ∧ ∀ q ∈ remaining, ∀ i ∈ q.2, i ∈ model.owned q.1 := by
  refine Participants.Yields.reformAll (fun _ out t => SameSets s t
    ∧ t.space.values = s.space.values ∧ ∀ q ∈ out, ∀ i ∈ q.2, i ∈ model.owned q.1) h
    ⟨.refl s, rfl, by simp⟩ ?_
  rintro done out k t u c rest - ⟨hsame, hvalues, hout⟩ hy
  have hrest : SameSets t u ∧ u.space.values = t.space.values ∧ ∀ i ∈ rest, i ∈ model.owned k := by
    unfold Participants.reformSet at hy
    rw [Model.indices_registry] at hy
    split_ifs at hy
    · obtain ⟨r, v, hr, hy⟩ := Action.yields_bind.mp hy
      obtain ⟨hpart, rfl⟩ := Action.yields_lift.mp hy
      obtain ⟨hsame, hvalues⟩ := frame_of_yields_reform hr
      exact ⟨hsame, hvalues, Report.subset_of_partition hpart⟩
    · obtain ⟨heq, rfl⟩ := Action.yields_pure.mp hy
      obtain ⟨-, rfl⟩ := Prod.mk.inj heq
      exact ⟨.refl t, rfl, fun i hi => hi⟩
  refine ⟨hsame.trans hrest.1, hrest.2.1.trans hvalues, fun q hq => ?_⟩
  rcases List.mem_append.mp hq with hq | hq
  · exact hout q hq
  · obtain rfl := List.mem_singleton.mp hq
    exact hrest.2.2

/-- What holds of a set of a sound workspace that owns a constraint, once it is ready. -/
theorem Ready.of_mem_owners (h : Ready w model prefs s) (hw : w.Sound model) {id : ℕ}
    (hid : id ∈ model.registry.owners) :
    ∃ plane, (s.space.uncertaintySet id).Ready model prefs plane
      ∧ (∀ i ∈ model.owned id, (i : ℤ) ∈ plane.indices)
      ∧ ∀ solver : Solver Extended, solver.Exact →
        ((s.space.uncertaintySet id).geometryWith solver).Exact model.parameters.length
          ((s.space.uncertaintySet id).Usable model) ((w.uncertaintySet id).Region model) := by
  obtain ⟨i, hi, rfl⟩ := Registry.mem_owners_ofOwner.mp hid
  obtain ⟨hcore, plane, hready, -⟩ := h i hi (hw.geometric i hi) (hw.wellFormed i hi).checked
  have hregion := UncertaintySet.region_eq_of_core hcore model
  refine ⟨plane, hready, fun j hj => ?_, fun solver hs => ?_⟩
  · obtain ⟨hj, howner⟩ := Model.mem_owned.mp hj
    obtain ⟨-, plane', hready', hmem⟩ := h j hj (hw.geometric j hj) (hw.wellFormed j hj).checked
    rw [howner] at hready'
    rwa [Option.some.inj (hready.plane_eq.symm.trans hready'.plane_eq)]
  · rw [← hregion]
    refine hready.exact hs ?_ ?_ hw.bounds
    · exact (UncertaintySet.wellFormed_of_core hcore).mpr (hw.wellFormed i hi)
    · rw [hregion]
      exact hw.inhabited i hi

end Session

/-- Everything the sets of a model reformulate was offered to them. -/
def Environment.Fair (env : Environment Extended) (model : Model Extended)
    (prefs : Preferences Extended) : Prop :=
  ∀ id ∈ model.registry.owners, ∀ j ∈ env.covered model prefs id, ∃ i ∈ model.owned id, j = (i : ℤ)

namespace Session

variable {w : Workspace Extended} {model : Model Extended} {prefs : Preferences Extended}
  {report : Bool} {env : Environment Extended} {s t : Session Extended}

/-- The constraints reformulated by some sets hold for all values their sets allow. -/
def Covered (w : Workspace Extended) (model : Model Extended) (prefs : Preferences Extended)
    (env : Environment Extended) (done : List ℕ) (y : Point) : Prop :=
  ∀ id ∈ done, ∀ j ∈ env.covered model prefs id,
    model.HoldsRobustly ((w.uncertaintySet id).Region model) y j

/-- A session whose master has the linear part of the model and constraints that encode what some
sets reformulated. -/
structure Reformed (w : Workspace Extended) (model : Model Extended) (prefs : Preferences Extended)
    (env : Environment Extended) (done : List ℕ) (s : Session Extended) : Prop where
  ready : Ready w model prefs s
  values : s.space.values = w.values
  master : ∃ cs, s.currentMaster = model.master.addConstraints cs
    ∧ Encodes w.supply.serial s.space.supply.serial cs (Covered w model prefs env done)

/-- One more set reformulates what it undertakes. -/
theorem Reformed.exists_reform (report : Bool) {done : List ℕ} {id : ℕ} (hw : w.Sound model)
    (h : Reformed w model prefs env done s) (hid : id ∈ model.registry.owners)
    (hfair : ∀ j ∈ env.covered model prefs id, ∃ i ∈ model.owned id, j = (i : ℤ)) :
    ∃ t, ((w.participants model report prefs env).reform id (model.owned id)).Yields s
        (UncertaintySet.reportOf (env.covered model prefs id)) t
      ∧ Reformed w model prefs env (done ++ [id]) t := by
  obtain ⟨plane, hready, hindices, hexact⟩ := h.ready.of_mem_owners hw hid
  obtain ⟨cs, hmaster, henc⟩ := h.master
  have hold : ∀ d, Decision.Owns model.decisions d → d.serial < w.supply.serial := fun d hd =>
    hw.serial d (.inl hd)
  -- no adversarial problem is solved here
  obtain ⟨ds, next, hy, henc'⟩ := hready.exists_reform
    (hexact (fun _ => .error .wrongKind) fun _ _ hne => by cases hne)
    ((env.portion id (model.owned id)).map Int.ofNat) (fun j hj => by
      obtain ⟨i, hi, rfl⟩ := hfair j hj
      exact hindices i hi) s.currentMaster s.space.supply fun d hd => (hold d hd).trans_le henc.le
  refine ⟨_, yields_reform.mpr ⟨_, _, next, hy, rfl⟩, ?_, h.values, cs ++ ds, ?_, ?_⟩
  · refine h.ready.of_sameSets fun j _ => ?_
    rw [Workspace.withSet_uncertaintySet]
    rfl
  · show s.currentMaster.addConstraints ds = _
    rw [hmaster, Master.addConstraints_addConstraints]
  · refine (henc.append henc' fun x y hxy => ?_).mono_congr fun y => ?_
    · exact forall₂_congr fun j _ => Model.HoldsRobustly.congr fun d hd => hxy d (hold d hd)
    · simp [Covered, Environment.covered, or_imp, forall_and]

/-- Sets that undertake constraints they were offered can reformulate them. -/
theorem exists_reformAll (report : Bool) (hw : w.Sound model) (hfair : env.Fair model prefs)
    (h : Reformed w model prefs env [] s) :
    ∃ n t, ((w.participants model report prefs env).reformAll model.registry).Yields s
        (n, env.remaining model prefs) t
      ∧ Reformed w model prefs env model.registry.owners t := by
  obtain ⟨n, remaining, t, hy, rfl, ht⟩ := Participants.exists_reformAll
    (p := w.participants model report prefs env)
    (fun done out t => out = done.map (fun id => (id, env.rest model prefs id))
      ∧ Reformed w model prefs env done t) ⟨rfl, h⟩ (by
      rintro done out id s hid ⟨rfl, hs⟩
      obtain ⟨t, hy, ht⟩ := hs.exists_reform report hw hid (hfair id hid)
      obtain ⟨i, hi, rfl⟩ := Registry.mem_owners_ofOwner.mp hid
      refine ⟨_, _, t, (Participants.yields_reformSet ((hw.geometric i hi).supports _)).mpr
        ⟨_, ?_, Report.partition_reportOf.mpr ⟨?_, rfl⟩⟩, by
          rw [List.map_append, Model.indices_registry]
          rfl, ht⟩
      · rw [Model.indices_registry]
        exact hy
      · rw [Model.indices_registry]
        exact hfair _ hid)
  exact ⟨n, t, hy, ht⟩

/-- In a successful run every set undertook constraints it was offered. -/
theorem fair_of_yields_reformAll (hw : w.Sound model) (hready : Ready w model prefs s) {n : ℕ}
    {remaining : List (ℕ × List ℕ)}
    (h : ((w.participants model report prefs env).reformAll model.registry).Yields s
      (n, remaining) t) :
    env.Fair model prefs := by
  refine (Participants.Yields.reformAll (fun done _ t => SameSets s t ∧ ∀ id ∈ done,
    ∀ j ∈ env.covered model prefs id, ∃ i ∈ model.owned id, j = (i : ℤ)) h
    ⟨.refl s, by simp⟩ ?_).2
  rintro done out id t u c rest hid ⟨hsame, hdone⟩ hy
  obtain ⟨i, hi, rfl⟩ := Registry.mem_owners_ofOwner.mp hid
  obtain ⟨r, hr, hpart⟩ :=
    (Participants.yields_reformSet ((hw.geometric i hi).supports _)).mp hy
  refine ⟨hsame.trans (frame_of_yields_reform hr).1, fun j hj => ?_⟩
  rcases List.mem_append.mp hj with hj | hj
  · exact hdone j hj
  · obtain rfl := List.mem_singleton.mp hj
    obtain ⟨plane, hplane, -⟩ := (hready.of_sameSets hsame).of_mem_owners hw hid
    obtain ⟨v, m, next, hv, -⟩ := yields_reform.mp hr
    have hreport : r = UncertaintySet.reportOf (env.covered model prefs (model.setFor i)) := by
      have := ((UncertaintySet.yields_reform hplane.plane_eq .builtin).mp hv).2
      rw [Model.indices_registry, hplane.preferCuts] at this
      unfold Environment.covered UncertaintySet.reformulated
      split_ifs at this ⊢
      · exact this.1
      · exact this.1
    rw [hreport, Report.partition_reportOf, Model.indices_registry] at hpart
    exact hpart.1

/-! ## Preparation -/

/-- A preparation leaves the sets of the two kinds ready, keeps all values, and leaves constraints
of their owners. This needs nothing of the other sets. -/
theorem ready_of_prepare (hsharp : model.SharpForms)
    (hreg : Registered w model model.uncertain.length s) {n : ℕ} {remaining : List (ℕ × List ℕ)}
    (h : ((w.participants model report prefs env).prepare model.registry).Yields s
      (n, remaining) t) :
    Ready w model prefs t ∧ t.space.values = w.values
      ∧ ∀ q ∈ remaining, ∀ i ∈ q.2, i ∈ model.owned q.1 := by
  obtain ⟨u, u', hsetup, hstart, hreform⟩ := Participants.yields_prepare.mp h
  have hset := setUp_of_yields hreg hsetup
  obtain rfl := yields_start.mp hstart
  obtain ⟨hsame, hvalues, hrest⟩ := frame_of_yields_reformAll hreform
  exact ⟨Ready.of_sameSets (hset.ready hsharp) hsame, hvalues.trans hset.values, hrest⟩

/-- After the start the master is the linear part of the model. -/
theorem SetUp.reformed_nil (env : Environment Extended)
    (h : SetUp w model (UncertaintySet.SetUp model prefs) model.registry.owners s)
    (hsharp : model.SharpForms) :
    Reformed w model prefs env [] { s with master := some model.master } where
  ready := h.ready hsharp
  values := h.values
  master := ⟨[], by simp [currentMaster], by
    rw [h.supply]
    exact (Encodes.nil _).mono_congr (by simp [Covered])⟩

/-- The outcome of a successful preparation. -/
theorem reformed_of_prepare (hw : w.Sound model) (hsharp : model.SharpForms)
    (hreg : Registered w model model.uncertain.length s) {n : ℕ} {remaining : List (ℕ × List ℕ)}
    (h : ((w.participants model report prefs env).prepare model.registry).Yields s
      (n, remaining) t) :
    env.Fair model prefs
      ∧ remaining = env.remaining model prefs
      ∧ Reformed w model prefs env model.registry.owners t := by
  obtain ⟨u, u', hsetup, hstart, hreform⟩ := Participants.yields_prepare.mp h
  have hset := setUp_of_yields hreg hsetup
  obtain rfl := yields_start.mp hstart
  have hnil := hset.reformed_nil env hsharp
  have hfair := fair_of_yields_reformAll hw hnil.ready hreform
  obtain ⟨n', t', hy, ht⟩ := exists_reformAll report hw hfair hnil
  obtain ⟨heq, rfl⟩ := hreform.unique hy
  exact ⟨hfair, (Prod.mk.inj heq).2, ht⟩

end Session

end RobustOpt
