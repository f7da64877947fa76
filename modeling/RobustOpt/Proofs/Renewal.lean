import Mathlib.Data.List.Induction
import RobustOpt.Proofs.Simulation
import RobustOpt.Proofs.UncertaintySet

/-!
# Sets from solve to solve

A set with a worst case keeps much of a solve, but a later solve uses none of it: registrations of
constraints it knows change nothing, the setup takes all else anew, and the phases after it leave
the set as it is.

## Main definitions

* `UncertaintySet.renewed`: a set without what a setup takes anew.

## Main statements

* `UncertaintySet.registered_registered`: registrations that are made again change nothing.
* `UncertaintySet.alike_setup`: a setup makes sets equal that differ in what it takes anew.
* `UncertaintySet.alike_cuts`, `UncertaintySet.alike_scenarios`: cuts and scenarios depend on the
  values of the decision variables only.
-/

namespace RobustOpt

open RobustOpt.Action

variable {α : Type}

/-! ## Registration -/

namespace CuttingPlane

variable {s : CuttingPlane α} {model : ℕ} {i : Int} {is : List Int}

theorem register_of_mem (hm : s.model = some model) (hi : i ∈ s.indices) :
    s.register model i = s := by
  simp [register, hm, hi]

theorem foldl_register_of_mem (h : ∀ i ∈ is, s.model = some model ∧ i ∈ s.indices) :
    is.foldl (fun p i => p.register model i) s = s := by
  induction is with
  | nil => rfl
  | cons i is ih =>
    obtain ⟨⟨hm, hi⟩, his⟩ := List.forall_mem_cons.mp h
    rw [List.foldl_cons, register_of_mem hm hi, ih his]

theorem model_foldl_register (h : is ≠ []) (s : CuttingPlane α) (model : ℕ) :
    (is.foldl (fun p i => p.register model i) s).model = some model := by
  induction is using List.reverseRecOn with
  | nil => exact absurd rfl h
  | append_singleton is i =>
    rw [List.foldl_append]
    exact (register_spec _ model i).1

/-- Registrations that were made change nothing when they are made again. -/
theorem foldl_register_foldl_register (s : CuttingPlane α) (model : ℕ) (is : List Int) :
    is.foldl (fun p i => p.register model i) (is.foldl (fun p i => p.register model i) s)
      = is.foldl (fun p i => p.register model i) s :=
  foldl_register_of_mem fun i hi => ⟨model_foldl_register (List.ne_nil_of_mem hi) s model,
    (mem_indices_foldl_register model is s).1 i hi⟩

variable [Scalar α]

/-- The registrations, which are all that a setup keeps. -/
def renewed (s : CuttingPlane α) : CuttingPlane α :=
  { new with model := s.model, indices := s.indices }

theorem register_renewed (s : CuttingPlane α) (model : ℕ) (i : Int) :
    s.renewed.register model i = (s.register model i).renewed := by
  unfold register renewed
  dsimp only
  split <;> split <;> rfl

theorem foldl_register_renewed (s : CuttingPlane α) (model : ℕ) (is : List Int) :
    is.foldl (fun p i => p.register model i) s.renewed
      = (is.foldl (fun p i => p.register model i) s).renewed := by
  induction is generalizing s with
  | nil => rfl
  | cons i is ih => rw [List.foldl_cons, List.foldl_cons, register_renewed, ih]

theorem indices_eq {p p' : CuttingPlane α} (h : p'.renewed = p.renewed) :
    p'.indices = p.indices :=
  (congrArg indices h :)

/-- All that a setup takes anew are the preferences and the forms. -/
theorem prefer_eq {p p' : CuttingPlane α} (h : p'.renewed = p.renewed) (prefs : Preferences α)
    (forms : List (Int × SparseMatrix α)) :
    { p'.prefer prefs with forms := forms } = { p.prefer prefs with forms := forms } := by
  have hmodel : p'.model = p.model := (congrArg CuttingPlane.model h :)
  simp [prefer, indices_eq h, hmodel]

end CuttingPlane

/-! ## Sets -/

namespace UncertaintySet

variable {s s' : UncertaintySet α} {model : Model α} {prefs : Preferences α}

/-! ### Registration -/

theorem registered_registered (model : ℕ) (s : UncertaintySet α) (is : List Int) :
    registered model (registered model s is) is = registered model s is := by
  cases s <;> simp [registered, CuttingPlane.foldl_register_foldl_register]

theorem kindName_registered (model : ℕ) (s : UncertaintySet α) (is : List Int) :
    (registered model s is).kindName = s.kindName := by
  cases s <;> rfl

/-- A registration notes the index, whatever else the set keeps. -/
theorem alike_register (h : s.plane?.isSome = true) (h' : s'.plane?.isSome = true)
    (hkind : s'.kindName = s.kindName) (i : Int) :
    Alike (fun _ t t' => t = registered model.id s [i] ∧ t' = registered model.id s' [i])
      (register model i prefs) (register model i prefs) s s' := by
  have hp := perform_register h model i prefs
  have hp' := perform_register h' model i prefs
  rw [hkind] at hp'
  cases hc : model.constraint? i with
  | error e =>
    rw [hc] at hp hp'
    exact .fails hp hp'
  | ok c =>
    rw [hc] at hp hp'
    cases hd : c.hasDecisions with
    | false =>
      simp only [hd] at hp hp'
      exact .fails hp hp'
    | true =>
      simp only [hd] at hp hp'
      exact .yields hp hp' ⟨rfl, rfl⟩

/-! ### Setup -/

variable [Scalar α]

/-- A set without what a setup takes anew. -/
def renewed : UncertaintySet α → UncertaintySet α
  | polyhedral plane d => polyhedral plane.renewed ⟨d.constraints, none, none, false, .absent⟩
  | budget plane b => budget plane.renewed { b with data := none }
  | bare phases => bare phases
  | scripted phases d => scripted phases d

theorem isSome_plane?_renewed (s : UncertaintySet α) :
    s.renewed.plane?.isSome = s.plane?.isSome := by
  cases s <;> rfl

theorem kindName_renewed (s : UncertaintySet α) : s.renewed.kindName = s.kindName := by
  cases s <;> rfl

theorem registered_renewed (model : ℕ) (s : UncertaintySet α) (is : List Int) :
    registered model s.renewed is = (registered model s is).renewed := by
  cases s <;> simp [renewed, registered, CuttingPlane.foldl_register_renewed]

end UncertaintySet

theorem Polyhedral.perform_setup [Scalar α] (d : Polyhedral α) (model : Model α)
    (prefs : Preferences α) (preferCuts : Bool) :
    (setup model prefs preferCuts).perform d = match polyhedronOf model.parameters.length
        model.parameterBounds.1 model.parameterBounds.2 d.constraints with
      | .ok p =>
        (.ok ⟨⟩, ⟨d.constraints, some model.parameterBounds, some p, preferCuts && !d.isBox,
          prefs.get Preferences.adversarySolver .absent⟩)
      | .error e => (.error e, { d with
          bounds := some model.parameterBounds
          solverName := prefs.get Preferences.adversarySolver .absent }) := by
  show ((liftM (polyhedronOf model.parameters.length model.parameterBounds.1
    model.parameterBounds.2 d.constraints) >>= _ : Action _ _ _).perform
    { d with
      bounds := some model.parameterBounds
      solverName := prefs.get Preferences.adversarySolver .absent }) = _
  rw [perform_lift_bind]
  cases polyhedronOf model.parameters.length model.parameterBounds.1 model.parameterBounds.2
    d.constraints <;> rfl

/-- A setup of a polyhedral set takes the bounds and the polyhedron anew. -/
theorem Polyhedral.alike_setup [Scalar α] {d d' : Polyhedral α}
    (h : d'.constraints = d.constraints) (model : Model α) (prefs : Preferences α)
    (preferCuts : Bool) :
    Alike (fun _ t t' => t' = t ∧ t.constraints = d.constraints)
      (setup model prefs preferCuts) (setup model prefs preferCuts) d d' := by
  have hd := perform_setup d model prefs preferCuts
  have hd' := perform_setup d' model prefs preferCuts
  rw [isBox, h] at hd'
  cases hp : polyhedronOf model.parameters.length model.parameterBounds.1 model.parameterBounds.2
      d.constraints with
  | error e =>
    rw [hp] at hd hd'
    exact .fails hd hd'
  | ok p =>
    rw [hp] at hd hd'
    exact .yields hd hd' ⟨rfl, rfl⟩

/-- A setup of a budget set takes its data anew. -/
theorem Budget.alike_setup [Scalar α] {s s' : Budget α}
    (h : { s' with data := none } = { s with data := none }) (kindName : String) (model : Model α)
    (forms : List (SparseMatrix α)) :
    Alike (fun _ t t' => t' = t ∧ { t with data := none } = { s with data := none })
      (setup kindName model forms) (setup kindName model forms) s s' := by
  obtain ⟨gamma, nominal, deviation, data⟩ := s
  obtain ⟨gamma', nominal', deviation', data'⟩ := s'
  obtain ⟨rfl, rfl, rfl, -⟩ := Budget.mk.inj h
  refine Alike.get_bind ?_
  refine Alike.bind (R := fun _ t t' => t = ⟨gamma', nominal', deviation', data⟩
    ∧ t' = ⟨gamma', nominal', deviation', data'⟩) (alike_lift fun _ _ => ⟨rfl, rfl⟩)
    fun nominal t t' _ ht => ?_
  obtain ⟨rfl, rfl⟩ := ht
  refine Alike.bind (R := fun _ t t' => t = ⟨gamma', nominal', deviation', data⟩
    ∧ t' = ⟨gamma', nominal', deviation', data'⟩) (alike_lift fun _ _ => ⟨rfl, rfl⟩)
    fun deviation t t' _ ht => ?_
  obtain ⟨rfl, rfl⟩ := ht
  dsimp only
  split
  · exact .fails rfl rfl
  · exact .yields rfl rfl ⟨rfl, rfl⟩

namespace UncertaintySet

variable [Scalar α] {s s' : UncertaintySet α} {model : Model α} {prefs : Preferences α}

/-- A setup takes preferences and forms anew, and leaves the data to an action of their own. -/
theorem alike_setupPlane {δ : Type} {plane plane' : CuttingPlane α} {d d' : δ}
    {c : CuttingPlane α → δ → UncertaintySet α} {a : CuttingPlane α → Action δ (Fault α) Unit}
    {T : δ → Prop} (hplane : plane'.renewed = plane.renewed)
    (hd : ∀ p, Alike (fun _ t t' => t' = t ∧ T t) (a p) (a p) d d') :
    Alike (fun _ t t' => t' = t ∧ ∃ p u, t = c p u ∧ p.renewed = plane.renewed ∧ T u)
      (setupPlane model prefs plane d c a) (setupPlane model prefs plane' d' c a) s s' := by
  unfold setupPlane
  have hforms : (plane'.prefer prefs).formsOf model = (plane.prefer prefs).formsOf model := by
    unfold CuttingPlane.formsOf
    rw [show (plane'.prefer prefs).indices = (plane.prefer prefs).indices from
      CuttingPlane.indices_eq hplane]
  rw [hforms]
  refine Alike.bind (R := fun _ _ _ => True) (.yields rfl rfl trivial) fun _ _ _ _ _ => ?_
  refine Alike.bind (R := fun _ _ _ => True) (alike_lift fun _ _ => trivial) fun forms _ _ _ _ => ?_
  refine Alike.bind (R := fun _ _ _ => True) (.yields rfl rfl trivial) fun _ _ _ _ _ => ?_
  rw [CuttingPlane.prefer_eq hplane]
  cases hd { plane.prefer prefs with forms := forms } with
  | fails h h' =>
    exact .fails (congrArg (fun r => (r.1, c _ r.2)) h) (congrArg (fun r => (r.1, c _ r.2)) h')
  | yields h h' hT =>
    obtain ⟨rfl, hT⟩ := hT
    exact .yields (yields_onState.mpr ⟨_, h, rfl⟩) (yields_onState.mpr ⟨_, h', rfl⟩)
      ⟨rfl, _, _, rfl, rfl, hT⟩

/-- A setup makes sets equal that differ in what it takes anew, and keeps the rest. -/
theorem alike_setup (hs : s.plane?.isSome = true) (h : s'.renewed = s.renewed) (report : Bool) :
    Alike (fun _ t t' => t' = t ∧ t.renewed = s.renewed) (setup model report prefs)
      (setup model report prefs) s s' := by
  refine Alike.get_bind ?_
  cases s with
  | bare | scripted => cases hs
  | polyhedral plane d =>
    cases s' with
    | budget | bare | scripted => cases h
    | polyhedral plane' d' =>
      obtain ⟨hplane, hd⟩ := UncertaintySet.polyhedral.inj h
      have hconstraints : d'.constraints = d.constraints := (congrArg Polyhedral.constraints hd :)
      refine (alike_setupPlane (c := polyhedral) hplane fun p =>
        Polyhedral.alike_setup hconstraints model prefs p.preferCuts.isTrue).mono ?_
      rintro _ t t' - ⟨rfl, p, u, rfl, hp, hu⟩
      exact ⟨rfl, by rw [renewed, renewed, hp, hu]⟩
  | budget plane b =>
    cases s' with
    | polyhedral | bare | scripted => cases h
    | budget plane' b' =>
      obtain ⟨hplane, hb⟩ := UncertaintySet.budget.inj h
      refine (alike_setupPlane (c := budget) hplane fun p =>
        Budget.alike_setup hb (budget p b).kindName model (p.forms.map Prod.snd)).mono ?_
      rintro _ t t' - ⟨rfl, p, u, rfl, hp, hu⟩
      exact ⟨rfl, by rw [renewed, renewed, hp, hu]⟩

/-! ### Cuts and scenarios -/

/-- Cuts depend on the values of the decision variables only, and leave the set as it is. -/
theorem alike_cuts (hs : s.plane?.isSome = true) {v v' : Valuation α}
    (hv : model.point v' = model.point v) (is : List Int) (solver : Solver α) :
    Alike (fun cs t t' => t = s ∧ t' = s ∧ ∃ (plane : CuttingPlane α) (g : Geometry α),
        plane.cuts g model (model.point v) is = .ok cs)
      (cuts model v is solver) (cuts model v' is solver) s s := by
  unfold cuts
  rw [hv]
  refine Alike.get_bind ?_
  cases s with
  | bare | scripted => cases hs
  | polyhedral plane d | budget plane b => exact alike_lift fun cs h => ⟨rfl, rfl, _, _, h⟩

/-- So do scenarios. -/
theorem alike_scenarios (hs : s.plane?.isSome = true) {v v' : Valuation α}
    (hv : model.point v' = model.point v) (is : List Int) (solver : Solver α) :
    Alike (fun _ t t' => t = s ∧ t' = s) (scenarios model v is solver)
      (scenarios model v' is solver) s s := by
  unfold scenarios
  rw [hv]
  refine Alike.get_bind ?_
  cases s with
  | bare | scripted => cases hs
  | polyhedral plane d | budget plane b =>
    exact Alike.bind (R := fun _ t t' => t = _ ∧ t' = _) (alike_lift fun _ _ => ⟨rfl, rfl⟩)
      fun _ _ _ _ ht => alike_pure ht

end UncertaintySet

end RobustOpt
