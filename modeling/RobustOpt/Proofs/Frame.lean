import RobustOpt.Proofs.Protocol
import RobustOpt.Resolution.Solve

/-!
# What a resolution leaves alone

A failing action keeps what it changed before it failed, so a property of the state outlasts an
action only if every single step preserves it. No step of a resolution changes the models, and only
solves of the master change values.

## Main definitions

* `Action.Keeps`: a property outlasts an action, whether it succeeds or fails.
* `Session.Concerns`: a property of the models and the values of a session only.
* `Attempt`, `Workspace.afterAll`: calls of a solve, and what a sequence of them leaves.
* `Workspace.Begins`, `Workspace.SolvesMaster`: a call gets as far as solving its master.

## Main statements

* `Participants.keeps_resolve`: what every participant keeps outlasts a resolution.
* `Workspace.models_runModel`: models outlast a resolution.
* `Workspace.values_attempt`: so do values, if the master is not solved.
-/

namespace RobustOpt

variable {σ τ ε β γ : Type}

/-! ## Actions -/

namespace Action

/-- The property outlasts the action, also if it fails. -/
def Keeps (P : σ → Prop) (a : Action σ ε β) : Prop := ∀ s, P s → P (a.perform s).2

variable {P : σ → Prop}

theorem Keeps.yields {a : Action σ ε β} {s t : σ} {b : β} (h : a.Keeps P) (hy : a.Yields s b t)
    (hs : P s) : P t := by
  have := h s hs
  rwa [show a.perform s = (.ok b, t) from hy] at this

theorem keeps_pure (b : β) : (pure b : Action σ ε β).Keeps P := fun _ h => h

theorem keeps_throw (e : ε) : (throw e : Action σ ε β).Keeps P := fun _ h => h

theorem keeps_lift (e : Except ε β) : (liftM e : Action σ ε β).Keeps P := fun _ h => h

theorem keeps_modify {f : σ → σ} (h : ∀ s, P s → P (f s)) :
    (modify f : Action σ ε PUnit).Keeps P := h

/-- The state a sequence leaves is that of its first action if this fails. -/
theorem perform_bind_snd {a : Action σ ε β} {f : β → Action σ ε γ} {s : σ}
    (ha : P (a.perform s).2) (hf : ∀ b t, a.Yields s b t → P ((f b).perform t).2) :
    P ((a >>= f).perform s).2 := by
  rw [perform_bind]
  rcases hp : a.perform s with ⟨_ | b, t⟩
  · rwa [hp] at ha
  · exact hf b t hp

theorem Keeps.bind {a : Action σ ε β} {f : β → Action σ ε γ} (ha : a.Keeps P)
    (hf : ∀ b, (f b).Keeps P) : (a >>= f).Keeps P := fun s hs =>
  perform_bind_snd (ha s hs) fun b t hy => hf b t (ha.yields hy hs)

theorem Keeps.get_bind {f : σ → Action σ ε β} (hf : ∀ s, (f s).Keeps P) : (get >>= f).Keeps P :=
  Keeps.bind (fun _ h => h) hf

theorem Keeps.onState {a : Action τ ε β} {part : σ → τ} {put : τ → σ → σ}
    (h : ∀ s, P s → P (put (a.perform (part s)).2 s)) : (a.onState part put).Keeps P := h

theorem Keeps.ite {c : Prop} [Decidable c] {a b : Action σ ε β} (ha : a.Keeps P)
    (hb : b.Keeps P) : (if c then a else b).Keeps P := by
  split_ifs
  exacts [ha, hb]

theorem Keeps.forM {f : β → Action σ ε PUnit} {l : List β} (h : ∀ b ∈ l, (f b).Keeps P) :
    (l.forM f).Keeps P := by
  induction l with
  | nil => exact keeps_pure _
  | cons b l ih =>
    exact (h b (by simp)).bind fun _ => ih fun c hc => h c (by simp [hc])

theorem Keeps.mapM {f : β → Action σ ε γ} {l : List β} (h : ∀ b ∈ l, (f b).Keeps P) :
    (l.mapM f).Keeps P := by
  induction l with
  | nil => exact keeps_pure _
  | cons b l ih =>
    rw [List.mapM_cons]
    exact (h b (by simp)).bind fun _ =>
      (ih fun c hc => h c (by simp [hc])).bind fun _ => keeps_pure _

theorem Keeps.foldlM {f : γ → β → Action σ ε γ} {l : List β} {c : γ}
    (h : ∀ c, ∀ b ∈ l, (f c b).Keeps P) : (l.foldlM f c).Keeps P := by
  induction l generalizing c with
  | nil => exact keeps_pure _
  | cons b l ih =>
    rw [List.foldlM_cons]
    exact (h c b (by simp)).bind fun d => ih fun c b hb => h c b (by simp [hb])

end Action

/-! ## The protocol -/

namespace Participants

open RobustOpt.Action

variable {α κ δ ρ : Type} [Scalar α] [BEq κ] {p : Participants α σ κ δ ρ} {P : σ → Prop}

omit [Scalar α] [BEq κ] in
theorem keeps_require (k : κ) (phase : Phase) : (p.require k phase).Keeps P :=
  Keeps.ite (keeps_pure _) (keeps_throw _)

omit [Scalar α] in
theorem keeps_registerAll (hregister : ∀ k i, (p.register k i).Keeps P) :
    p.registerAll.Keeps P := by
  refine Keeps.bind (Keeps.foldlM fun r i _ => ?_) fun r => ?_
  · refine (keeps_require _ _).bind fun _ => (hregister _ _).bind fun _ => ?_
    split
    · exact keeps_pure _
    · exact keeps_throw _
  · dsimp only
    split
    · exact (keeps_throw _).bind fun _ => keeps_pure _
    · exact keeps_pure _

omit [Scalar α] in
theorem keeps_setupAll (r : Registry ℕ κ) (hsetup : ∀ k, (p.setup k).Keeps P) :
    (p.setupAll r).Keeps P :=
  Keeps.forM fun k _ => (keeps_require _ _).bind fun _ => hsetup k

theorem keeps_reformAll (r : Registry ℕ κ) (hreform : ∀ k is, (p.reform k is).Keeps P) :
    (p.reformAll r).Keeps P := by
  refine Keeps.bind (Keeps.mapM fun k _ => Keeps.bind ?_ fun _ => keeps_pure _) fun _ =>
    keeps_pure _
  exact Keeps.ite ((hreform _ _).bind fun _ => keeps_lift _) (keeps_pure _)

theorem keeps_prepare (r : Registry ℕ κ) (hsetup : ∀ k, (p.setup k).Keeps P)
    (hstart : p.start.Keeps P) (hreform : ∀ k is, (p.reform k is).Keeps P) :
    (p.prepare r).Keeps P :=
  (keeps_setupAll r hsetup).bind fun _ => hstart.bind fun _ => keeps_reformAll r hreform

omit [Scalar α] [BEq κ] in
theorem keeps_gatherCuts (remaining : List (κ × List ℕ)) (hcut : ∀ k is, (p.cut k is).Keeps P) :
    (p.gatherCuts remaining).Keeps P := by
  refine Keeps.bind (Keeps.mapM fun q _ => ?_) fun _ => keeps_pure _
  exact Keeps.ite (keeps_pure _) ((keeps_require _ _).bind fun _ => hcut _ _)

omit [Scalar α] [BEq κ] in
theorem keeps_cutLoop (remaining : List (κ × List ℕ)) (hsolve : p.solve.Keeps P)
    (hcut : ∀ k is, (p.cut k is).Keeps P) (hadd : ∀ cs, (p.addCuts cs).Keeps P)
    (left iterations total : ℕ) : (p.cutLoop remaining left iterations total).Keeps P := by
  have hgather := keeps_gatherCuts remaining hcut
  induction left generalizing iterations total with
  | zero =>
    refine hsolve.bind fun status => Keeps.ite (keeps_pure _) (hgather.bind fun cuts => ?_)
    exact Keeps.ite (keeps_pure _) (keeps_pure _)
  | succ left ih =>
    refine hsolve.bind fun status => Keeps.ite (keeps_pure _) (hgather.bind fun cuts => ?_)
    exact Keeps.ite (keeps_pure _) ((hadd cuts).bind fun _ => ih _ _)

omit [Scalar α] [BEq κ] in
theorem keeps_collectScenarios (remaining : List (κ × List ℕ))
    (hscenario : ∀ k is, (p.scenario k is).Keeps P) :
    (p.collectScenarios remaining).Keeps P := by
  refine Keeps.bind (Keeps.mapM fun q _ => ?_) fun _ => keeps_pure _
  refine Keeps.ite (keeps_pure _)
    ((keeps_require _ _).bind fun _ => (hscenario _ _).bind fun _ => ?_)
  exact Keeps.ite ((keeps_throw _).bind fun _ => keeps_pure _) (keeps_pure _)

/-- What every participant keeps from the setup on outlasts what follows the registration. -/
theorem keeps_resolveRegistered (r : Registry ℕ κ) (hsetup : ∀ k, (p.setup k).Keeps P)
    (hstart : p.start.Keeps P) (hreform : ∀ k is, (p.reform k is).Keeps P)
    (hsolve : p.solve.Keeps P) (hcut : ∀ k is, (p.cut k is).Keeps P)
    (hadd : ∀ cs, (p.addCuts cs).Keeps P) (hscenario : ∀ k is, (p.scenario k is).Keeps P)
    (limit : ℕ) (report : Bool) : (p.resolveRegistered r limit report).Keeps P := by
  refine Keeps.bind (keeps_prepare r hsetup hstart hreform) fun out => ?_
  refine Keeps.bind (keeps_cutLoop out.2 hsolve hcut hadd limit 0 0) fun rounds => ?_
  exact Keeps.ite ((keeps_collectScenarios out.2 hscenario).bind fun _ => keeps_pure _)
    ((keeps_pure _).bind fun _ => keeps_pure _)

/-- What every participant keeps outlasts a resolution. -/
theorem keeps_resolve (hregister : ∀ k i, (p.register k i).Keeps P)
    (hsetup : ∀ k, (p.setup k).Keeps P) (hstart : p.start.Keeps P)
    (hreform : ∀ k is, (p.reform k is).Keeps P) (hsolve : p.solve.Keeps P)
    (hcut : ∀ k is, (p.cut k is).Keeps P) (hadd : ∀ cs, (p.addCuts cs).Keeps P)
    (hscenario : ∀ k is, (p.scenario k is).Keeps P) (limit : ℕ) (report : Bool) :
    (p.resolve limit report).Keeps fun g => P g.world := by
  refine Keeps.bind (Keeps.onState fun g => keeps_registerAll hregister g.world) fun r => ?_
  refine Keeps.bind (keeps_modify fun _ h => h) fun _ => Keeps.onState fun g => ?_
  exact keeps_resolveRegistered r hsetup hstart hreform hsolve hcut hadd hscenario limit report
    g.world

/-- What registration and preparation keep outlasts a resolution whose first solve fails, if this
solve keeps it. -/
theorem perform_resolve_of_unsolved {g : Progress σ κ} (hregister : ∀ k i, (p.register k i).Keeps P)
    (hsetup : ∀ k, (p.setup k).Keeps P) (hstart : p.start.Keeps P)
    (hreform : ∀ k is, (p.reform k is).Keeps P)
    (hsolve : ∀ r s out t, p.registerAll.Yields g.world r s → (p.prepare r).Yields s out t → P t →
      P (p.solve.perform t).2 ∧ ∀ status u, ¬ p.solve.Yields t status u)
    (limit : ℕ) (report : Bool) (hg : P g.world) :
    P ((p.resolve limit report).perform g).2.world := by
  have hregisterAll := keeps_registerAll hregister
  have hrest : ∀ r s, p.registerAll.Yields g.world r s →
      P ((p.resolveRegistered r limit report).perform s).2 := by
    intro r s hr
    have hprepare := keeps_prepare r hsetup hstart hreform
    have hs := hregisterAll.yields hr hg
    refine perform_bind_snd (hprepare s hs) fun out t ht => ?_
    obtain ⟨hP, hfails⟩ := hsolve r s out t hr ht (hprepare.yields ht hs)
    refine perform_bind_snd ?_ fun rounds u hu => ?_
    · cases limit <;> exact perform_bind_snd hP fun status u hu => absurd hu (hfails status u)
    · cases limit <;> obtain ⟨status, v, hv, -⟩ := yields_bind.mp hu <;>
        exact absurd hv (hfails status v)
  refine perform_bind_snd (P := fun g : Progress σ κ => P g.world) (hregisterAll g.world hg)
    fun r _ hr => ?_
  obtain ⟨s, hs, rfl⟩ := yields_onState.mp hr
  refine perform_bind_snd (P := fun g : Progress σ κ => P g.world) (hregisterAll.yields hs hg)
    fun _ _ hmod => ?_
  obtain rfl := yields_modify.mp hmod
  exact hrest r s hs

end Participants

/-! ## Objectives -/

namespace CuttingPlane

open RobustOpt.Action

variable {α : Type} [Scalar α] (plane : CuttingPlane α) (g : Geometry α) (model : Model α)
  (o : Objective α)

theorem perform_addSide (dense : List (List α)) (side : α × α) (t : Master α × Supply) :
    (addSide g model dense side).perform t = match reformSide g model dense side.1 side.2 t.2 with
      | .ok r => (.ok ⟨⟩, (t.1.addConstraints r.1, r.2))
      | .error e => (.error e, t) := by
  unfold addSide
  rw [perform_get_bind]
  dsimp only
  rw [perform_lift_bind]
  cases reformSide g model dense side.1 side.2 t.2 <;> rfl

theorem keeps_addSide (dense : List (List α)) (side : α × α) :
    (addSide g model dense side).Keeps fun t => t.1.objective = o := by
  intro t ht
  rw [perform_addSide]
  split
  · exact ht
  · exact ht

/-- Reformulations add constraints to a master. -/
theorem keeps_reform (indices : List Int) :
    (plane.reform g model indices).Keeps fun t => t.1.objective = o :=
  Keeps.forM fun _ _ => (keeps_lift _).bind fun _ => (keeps_lift _).bind fun _ =>
    Keeps.forM fun _ _ => keeps_addSide g model o _ _

end CuttingPlane

theorem Scripted.keeps_reform {α : Type} [Scalar α] (d : Scripted α) (model : Model α)
    (o : Objective α) : (d.reform model).Keeps fun t => t.1.objective = o :=
  Action.Keeps.bind (Action.Keeps.forM fun _ _ => (Action.keeps_lift _).bind fun _ =>
    Action.keeps_modify fun _ ht => ht) fun _ => Action.keeps_pure _

theorem UncertaintySet.keeps_reform {α : Type} [Scalar α] (model : Model α) (indices : List Int)
    (o : Objective α) : (reform model indices).Keeps fun b => b.master.objective = o := by
  refine Action.Keeps.get_bind fun b => ?_
  split
  · refine Action.Keeps.ite (Action.keeps_pure _) (Action.Keeps.bind ?_ fun _ =>
      Action.keeps_pure _)
    exact Action.Keeps.onState fun b hb =>
      CuttingPlane.keeps_reform _ _ _ o _ (b.master, b.supply) hb
  · refine Action.Keeps.ite (Action.keeps_pure _) (Action.Keeps.bind ?_ fun _ =>
      Action.keeps_pure _)
    exact Action.Keeps.onState fun b hb =>
      CuttingPlane.keeps_reform _ _ _ o _ (b.master, b.supply) hb
  · exact Action.keeps_throw _
  · exact Action.Keeps.bind (Action.keeps_modify fun _ hb => hb) fun _ =>
      Action.Keeps.onState fun b hb => Scripted.keeps_reform _ model o (b.master, b.supply) hb

/-! ## Sessions -/

namespace Session

open RobustOpt.Action

variable {α : Type} [Scalar α] {w : Workspace α} {model : Model α} {report : Bool}
  {prefs : Preferences α} {env : Environment α} {P : Session α → Prop}

/-- The property speaks about the models and the values only. -/
def Concerns (P : Session α → Prop) : Prop :=
  ∀ s t : Session α, t.space.models = s.space.models → t.space.values = s.space.values → P s → P t

/-- What a solve of the master does. -/
theorem perform_solveMaster (solver : Solver α) (s : Session α) :
    (solveMaster solver).perform s = match s.currentMaster.solve s.space.values solver with
      | .ok (m, v) => (.ok (m.status?.getD .optimal),
          { space := { s.space with values := v }, master := some m })
      | .error e => (.error e, s) := by
  unfold solveMaster
  rw [perform_get_bind, perform_lift_bind]
  cases s.currentMaster.solve s.space.values solver <;> rfl

section Calls

variable (hP : Concerns P)
include hP

theorem keeps_register (id i : ℕ) :
    ((w.participants model report prefs env).register id i).Keeps P :=
  Keeps.onState fun s hs => hP s _ rfl rfl hs

theorem keeps_setup (id : ℕ) : ((w.participants model report prefs env).setup id).Keeps P :=
  Keeps.onState fun s hs => hP s _ rfl rfl hs

theorem keeps_start : ((w.participants model report prefs env).start).Keeps P :=
  keeps_modify fun s hs => hP s _ rfl rfl hs

theorem keeps_reform (id : ℕ) (is : List ℕ) :
    ((w.participants model report prefs env).reform id is).Keeps P :=
  Keeps.onState fun s hs => hP s _ rfl rfl hs

theorem keeps_cut (id : ℕ) (is : List ℕ) :
    ((w.participants model report prefs env).cut id is).Keeps P :=
  Keeps.get_bind fun _ => Keeps.onState fun s hs => hP s _ rfl rfl hs

theorem keeps_addCuts (cs : List (LinearConstraint α)) :
    ((w.participants model report prefs env).addCuts cs).Keeps P :=
  keeps_modify fun s hs => hP s _ rfl rfl hs

theorem keeps_scenario (id : ℕ) (is : List ℕ) :
    ((w.participants model report prefs env).scenario id is).Keeps P :=
  Keeps.get_bind fun _ => Keeps.onState fun s hs => hP s _ rfl rfl hs

end Calls

/-- A solve that fails changes nothing, any other one the values and the master. -/
theorem keeps_solve (hP : ∀ s m v, P s → P { space := { s.space with values := v }, master := m }) :
    ((w.participants model report prefs env).solve).Keeps P := by
  intro s hs
  show P ((solveMaster env.master).perform s).2
  rw [perform_solveMaster]
  split
  · exact hP s _ _ hs
  · exact hs

/-- Reformulations keep the objective of the master. -/
theorem keeps_reform_objective (id : ℕ) (is : List ℕ) (o : Objective α) :
    ((w.participants model report prefs env).reform id is).Keeps
      fun s => s.currentMaster.objective = o :=
  Keeps.onState fun s hs => UncertaintySet.keeps_reform model _ o
    ⟨s.space.uncertaintySet id, s.currentMaster, s.space.supply⟩ hs

/-- Cuts concern the sets only. -/
theorem keeps_cut_master (id : ℕ) (is : List ℕ) (v : Valuation α) (m : Option (Master α)) :
    ((w.participants model report prefs env).cut id is).Keeps
      fun s => s.space.values = v ∧ s.master = m :=
  Keeps.get_bind fun _ => Keeps.onState fun _ hs => hs

end Session

/-! ## Resolutions -/

namespace Workspace

variable {α : Type} [Scalar α]

/-- Models outlast a resolution, also one that fails. -/
theorem models_runModel (w : Workspace α) (id : ℕ) (settings : Settings α) (prefs : Preferences α)
    (env : Environment α) : (w.runModel id settings prefs env).2.world.space.models = w.models := by
  have hP : Session.Concerns fun s : Session α => s.space.models = w.models :=
    fun s t hmodels _ hs => hmodels.trans hs
  have hresolve := Participants.keeps_resolve
    (p := w.participants (w.model id) settings.reportScenarios.isTrue prefs env)
    (Session.keeps_register hP) (Session.keeps_setup hP) (Session.keeps_start hP)
    (Session.keeps_reform hP) (Session.keeps_solve fun s m v hs => hs) (Session.keeps_cut hP)
    (Session.keeps_addCuts hP) (Session.keeps_scenario hP) settings.rounds
    settings.reportScenarios.isTrue
  show ((run (w.model id) settings prefs env).perform ⟨⟨w, none⟩, none⟩).2.world.space.models = _
  rw [run, Action.perform_get_bind]
  exact hresolve.bind (fun _ => Action.Keeps.get_bind fun _ => Action.keeps_pure _) _ rfl

end Workspace

/-! ## Sequences of solves -/

/-- A call of a solve: its arguments and what it takes from outside. -/
structure Attempt (α : Type) where
  settings : Settings α
  prefs : Preferences α
  env : Environment α

/-- A call with the solver of the library that prefers cuts, or not. -/
def Attempt.preferring {α : Type} (cuts : Bool) : Attempt α :=
  ⟨.defaults, [(Preferences.preferCuts, .truth cuts)], .standard⟩

namespace Workspace

variable {α : Type} [Scalar α]

/-- The answer of a solve and the workspace it leaves. -/
def attempt (w : Workspace α) (id : ℕ) (a : Attempt α) :
    Except (Fault α) (SolveResult α) × Workspace α :=
  w.solve id a.settings a.prefs a.env

/-- What a sequence of solves leaves. -/
def afterAll (w : Workspace α) (id : ℕ) (as : List (Attempt α)) : Workspace α :=
  as.foldl (fun w a => (w.attempt id a).2) w

/-- Every call of a sequence has a property, at the workspace in which it is made. -/
def Throughout (P : Workspace α → Attempt α → Prop) (w : Workspace α) (id : ℕ) :
    List (Attempt α) → Prop
  | [] => True
  | a :: as => P w a ∧ Throughout P (w.attempt id a).2 id as

/-- The call gives a result. -/
def Succeeds (id : ℕ) (w : Workspace α) (a : Attempt α) : Prop := ∃ r, (w.attempt id a).1 = .ok r

/-- What a call does before it solves its master for the first time. -/
def opening (w : Workspace α) (id : ℕ) (a : Attempt α) :
    Action (Session α) (Fault α) (ℕ × List (ℕ × List ℕ)) :=
  let p := w.participants (w.model id) a.settings.reportScenarios.isTrue a.prefs a.env
  p.registerAll >>= p.prepare

/-- The call gets to its first solve of the master, in a given session. -/
def Begins (w : Workspace α) (id : ℕ) (a : Attempt α) (s : Session α) : Prop :=
  ∃ out, (w.opening id a).Yields ⟨w, none⟩ out s

/-- The call gets an answer from the solver of its master. -/
def SolvesMaster (w : Workspace α) (id : ℕ) (a : Attempt α) : Prop :=
  ∃ s status t, w.Begins id a s ∧ (Session.solveMaster a.env.master).Yields s status t

variable {w : Workspace α} {id : ℕ} {P : Workspace α → Attempt α → Prop}

theorem afterAll_append (as bs : List (Attempt α)) :
    w.afterAll id (as ++ bs) = (w.afterAll id as).afterAll id bs :=
  List.foldl_append

theorem throughout_append {as bs : List (Attempt α)} :
    Throughout P w id (as ++ bs)
      ↔ Throughout P w id as ∧ Throughout P (w.afterAll id as) id bs := by
  induction as generalizing w with
  | nil => simp [Throughout, afterAll]
  | cons a as ih =>
    rw [List.cons_append, Throughout, Throughout, ih, and_assoc]
    rfl

/-- A solve leaves the models, except for the result of its own one. -/
theorem model_attempt (hid : (w.model id).id = id) (a : Attempt α) :
    ∃ result, (w.attempt id a).2.model id = { w.model id with result }
      ∧ ∀ r, result = some r → (w.attempt id a).1 = .ok r
        ∨ (∃ e, (w.attempt id a).1 = .error e) ∧ (w.model id).result = some r := by
  have hmodels := w.models_runModel id a.settings a.prefs a.env
  unfold attempt solve
  generalize w.runModel id a.settings a.prefs a.env = q at hmodels ⊢
  rcases q with ⟨e | r, g⟩ <;>
    have hmodel : g.world.space.model id = w.model id := by
      unfold model
      rw [show g.world.space.models = w.models from hmodels]
  · exact ⟨(w.model id).result, hmodel, fun r hr => .inr ⟨⟨e, rfl⟩, hr⟩⟩
  · have hset : (g.world.space.withModel { w.model id with result := some r }).models
        = w.models.set id { w.model id with result := some r } := by
      rw [withModel, show g.world.space.models = w.models from hmodels, hid]
    rcases Nat.lt_or_ge id w.models.length with hlt | hge
    · refine ⟨some r, ?_, fun r' hr => .inl (by rw [Option.some.inj hr])⟩
      dsimp only
      rw [hmodel, model, hset]
      simp [hlt]
    · refine ⟨none, ?_, fun r' hr => by cases hr⟩
      dsimp only
      rw [hmodel, model, hset]
      simp [hge, model, Model.new]

/-- Values outlast a failing solve that does not solve its master. -/
theorem values_attempt {a : Attempt α} {e : Fault α} (ha : (w.attempt id a).1 = .error e)
    (h : ¬ w.SolvesMaster id a) : (w.attempt id a).2.values = w.values := by
  have hP : Session.Concerns fun s : Session α => s.space.values = w.values :=
    fun s t _ hvalues hs => hvalues.trans hs
  have hsolve : ∀ t : Session α, t.space.values = w.values →
      (∀ status u, ¬ (Session.solveMaster a.env.master).Yields t status u) →
      ((Session.solveMaster a.env.master).perform t).2.space.values = w.values := by
    intro t ht hfails
    unfold Action.Yields at hfails
    rw [Session.perform_solveMaster] at hfails ⊢
    cases hm : t.currentMaster.solve t.space.values a.env.master with
    | ok r =>
      rw [hm] at hfails
      exact absurd rfl (hfails _ _)
    | error e => exact ht
  have hresolve := Participants.perform_resolve_of_unsolved (g := ⟨⟨w, none⟩, none⟩)
    (p := w.participants (w.model id) a.settings.reportScenarios.isTrue a.prefs a.env)
    (Session.keeps_register hP) (Session.keeps_setup hP) (Session.keeps_start hP)
    (Session.keeps_reform hP) (fun r s out t hreg hprep ht => by
      have hfails : ∀ status u, ¬ (Session.solveMaster a.env.master).Yields t status u :=
        fun status u hu => h ⟨t, status, u, ⟨out, Action.yields_bind.mpr ⟨r, s, hreg, hprep⟩⟩, hu⟩
      exact ⟨hsolve t ht hfails, hfails⟩)
    a.settings.rounds a.settings.reportScenarios.isTrue rfl
  have hrun : (w.runModel id a.settings a.prefs a.env).2.world.space.values = w.values := by
    show ((run (w.model id) a.settings a.prefs a.env).perform
      ⟨⟨w, none⟩, none⟩).2.world.space.values = _
    rw [run, Action.perform_get_bind]
    refine Action.perform_bind_snd (P := fun g : Resolution α => g.world.space.values = w.values)
      hresolve fun b g hy => ?_
    rw [show _ = (_, g) from hy] at hresolve
    exact hresolve
  unfold attempt solve at ha ⊢
  generalize w.runModel id a.settings a.prefs a.env = q at hrun ha ⊢
  rcases q with ⟨_ | _, g⟩
  · exact hrun
  · cases ha

end Workspace

end RobustOpt
