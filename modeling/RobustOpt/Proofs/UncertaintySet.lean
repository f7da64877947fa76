import RobustOpt.Proofs.Budget
import RobustOpt.Proofs.CuttingPlane
import RobustOpt.Proofs.Polyhedral
import RobustOpt.UncertaintySet.Basic

/-!
# The phases of a set

What each phase of a polyhedral or budget set does to its state. Registration notes indices, the
setup takes forms, preferences and data, and no later phase changes the set. The values its
parameters can take do not depend on any of this.

## Main definitions

* `UncertaintySet.Region`: the values the parameters of a model can take.
* `UncertaintySet.core`: a set without what it keeps of a solve.
* `UncertaintySet.registered`: a set with indices registered to it.
* `UncertaintySet.SetUp`: how a setup changes a set.
* `UncertaintySet.HasData`: a set that holds the data of a model.
* `UncertaintySet.Ready`: a set after its setup.

## Main statements

* `UncertaintySet.Ready.exact`: worst case and reformulation of a set are right after its setup.
* `UncertaintySet.Ready.exists_reform`: what a reformulation adds to the master.
-/

namespace RobustOpt

open Bilinear

/-- The entries of the matrices of all uncertain constraints are sharp. -/
def Model.SharpForms (model : Model Extended) : Prop :=
  ∀ i c, model.constraint? i = .ok c → ∀ q, c.expr.coefficientMatrix model.parameters.length
    model.decisions.length = .ok q → q.Sharp

namespace UncertaintySet

/-- Whether a set is of one of the two kinds that know worst cases. -/
def IsGeometric (s : UncertaintySet Extended) : Prop := s.plane?.isSome = true

/-- The values the parameters of a model can take. -/
def Region (s : UncertaintySet Extended) (model : Model Extended) (u : ℕ → ℚ) : Prop :=
  match s with
  | polyhedral _ d => d.Region model u
  | budget _ b => b.RegionFor model u
  | bare _ | scripted _ _ => False

/-- Rational data of a polyhedron; for budget sets a rational budget and what is checked when they
are built. -/
def WellFormed (s : UncertaintySet Extended) (model : Model Extended) : Prop :=
  match s with
  | polyhedral _ d => d.Rational model
  | budget _ b => b.WellFormed
  | bare _ | scripted _ _ => True

/-- What is checked when a set is built, and that a budget is rational: the check alone accepts an
infinite one as well. -/
def Checked : UncertaintySet Extended → Prop
  | budget _ b => b.WellFormed
  | polyhedral _ _ | bare _ | scripted _ _ => True

/-- A set without what it keeps of a solve. -/
def core {α : Type} [Scalar α] : UncertaintySet α → UncertaintySet α
  | polyhedral _ d => polyhedral .new ⟨d.constraints, none, none, false, .absent⟩
  | budget _ b => budget .new { b with data := none }
  | bare phases => bare phases
  | scripted phases d => scripted phases ⟨d.script, []⟩

/-- Worst case and reformulation of a set, with a solver of adversarial problems. -/
def geometryWith (solver : Solver Extended) : UncertaintySet Extended → Geometry Extended
  | polyhedral _ d => d.geometry solver
  | budget _ b => b.geometry
  | bare _ | scripted _ _ =>
    ⟨fun _ => .error .missingAttribute, fun _ _ _ _ _ => .error .missingAttribute⟩

variable {s s' : UncertaintySet Extended} {model : Model Extended} {prefs : Preferences Extended}

theorem region_core (s : UncertaintySet Extended) (model : Model Extended) :
    s.core.Region model = s.Region model := by
  cases s <;> rfl

theorem region_eq_of_core (h : s.core = s'.core) (model : Model Extended) :
    s.Region model = s'.Region model := by
  rw [← region_core, h, region_core]

theorem wellFormed_core (s : UncertaintySet Extended) (model : Model Extended) :
    s.core.WellFormed model ↔ s.WellFormed model := by
  cases s with
  | polyhedral | bare | scripted => rfl
  | budget plane b => exact Budget.wellFormed_withData none

theorem wellFormed_of_core (h : s.core = s'.core) : s.WellFormed model ↔ s'.WellFormed model := by
  rw [← wellFormed_core, h, wellFormed_core]

theorem WellFormed.checked (h : s.WellFormed model) : s.Checked := by
  cases s with
  | budget => exact h
  | polyhedral | bare | scripted => trivial

theorem checked_core (s : UncertaintySet Extended) : s.core.Checked ↔ s.Checked := by
  cases s with
  | polyhedral | bare | scripted => rfl
  | budget plane b => exact Budget.wellFormed_withData none

theorem checked_of_core (h : s.core = s'.core) : s.Checked ↔ s'.Checked := by
  rw [← checked_core, h, checked_core]

theorem isGeometric_core (s : UncertaintySet Extended) : s.core.IsGeometric ↔ s.IsGeometric := by
  cases s <;> rfl

theorem isGeometric_of_core (h : s.core = s'.core) : s.IsGeometric ↔ s'.IsGeometric := by
  rw [← isGeometric_core, h, isGeometric_core]

theorem supports_of_plane {α : Type} {s : UncertaintySet α} (h : s.plane?.isSome = true)
    (p : Phase) : s.supports p = true := by
  cases s with
  | polyhedral | budget => simp
  | bare | scripted => cases h

theorem IsGeometric.supports (h : s.IsGeometric) (p : Phase) : s.supports p = true :=
  supports_of_plane h p

/-! ## Registration -/

section Registered

variable {α : Type}

/-- A set with indices of a model registered to it. -/
def registered (model : Nat) (s : UncertaintySet α) (indices : List ℤ) : UncertaintySet α :=
  match s with
  | polyhedral plane d => polyhedral (indices.foldl (fun p i => p.register model i) plane) d
  | budget plane b => budget (indices.foldl (fun p i => p.register model i) plane) b
  | bare phases => bare phases
  | scripted phases d => scripted phases d

@[simp] theorem registered_nil (model : Nat) (s : UncertaintySet α) :
    registered model s [] = s := by
  cases s <;> rfl

theorem registered_append (model : Nat) (s : UncertaintySet α) (is js : List ℤ) :
    registered model s (is ++ js) = registered model (registered model s is) js := by
  cases s <;> simp [registered]

theorem isSome_plane?_registered (model : Nat) (s : UncertaintySet α) (is : List ℤ) :
    (registered model s is).plane?.isSome = s.plane?.isSome := by
  cases s <;> rfl

@[simp] theorem core_registered [Scalar α] (model : Nat) (s : UncertaintySet α) (is : List ℤ) :
    (registered model s is).core = s.core := by
  cases s <;> rfl

variable {s s' : UncertaintySet α} {model : Model α} {prefs : Preferences α}

/-- A claim notes the index of a constraint with decision variables. -/
theorem perform_claim (model : Model α) (i : Int) (plane : CuttingPlane α) (s : UncertaintySet α) :
    (register.claim model i plane).perform s = match model.constraint? i with
      | .ok c => if c.hasDecisions then (.ok (plane.register model.id i), s)
        else (.error (.noDecisions i s.kindName), s)
      | .error e => (.error e, s) := by
  unfold register.claim
  rw [Action.perform_lift_bind]
  cases model.constraint? i with
  | error => rfl
  | ok c =>
    dsimp only
    cases c.hasDecisions <;> rfl

/-- A registration notes the index, or is refused and changes nothing. -/
theorem perform_register (hs : s.plane?.isSome = true) (model : Model α) (i : Int)
    (prefs : Preferences α) :
    (register model i prefs).perform s = match model.constraint? i with
      | .ok c => if c.hasDecisions then (.ok ⟨⟩, registered model.id s [i])
        else (.error (.noDecisions i s.kindName), s)
      | .error e => (.error e, s) := by
  have hset : ∀ {p : CuttingPlane α} (c : CuttingPlane α → UncertaintySet α),
      (register.claim model i p >>= fun p => set (c p)).perform s = match model.constraint? i with
        | .ok k => if k.hasDecisions then (.ok ⟨⟩, c (p.register model.id i))
          else (.error (.noDecisions i s.kindName), s)
        | .error e => (.error e, s) := by
    intro p c
    rw [Action.perform_bind, perform_claim]
    cases model.constraint? i with
    | error => rfl
    | ok k => cases hk : k.hasDecisions <;> simp only [hk] <;> rfl
  unfold register
  rw [Action.perform_get_bind]
  cases s with
  | bare | scripted => cases hs
  | polyhedral p d | budget p b => exact hset _

/-- A registration takes constraints with decision variables, whatever the preferences. -/
theorem yields_register (hs : s.plane?.isSome = true) {i : ℕ} (hi : i < model.uncertain.length)
    {r : Unit} :
    (register model i prefs).Yields s r s' ↔
      (model.uncertain[i]).constraint.hasDecisions = true
        ∧ s' = registered model.id s [(i : ℤ)] := by
  unfold Action.Yields
  rw [perform_register hs, Model.constraint?_natCast hi]
  dsimp only
  split_ifs with hd
  · simp [hd, eq_comm]
  · simp [hd]

/-- A registration that is refused changes nothing. -/
theorem snd_register_of_error (hs : s.plane?.isSome = true) {i : Int} {e : Fault α}
    (h : ((register model i prefs).perform s).1 = .error e) :
    ((register model i prefs).perform s).2 = s := by
  rw [perform_register hs] at h ⊢
  cases hc : model.constraint? i with
  | error => rfl
  | ok c =>
    rw [hc] at h
    cases hd : c.hasDecisions with
    | false => simp [hd]
    | true => simp [hd] at h

end Registered

/-! ## Setup -/

/-- How a setup changes a set: it takes the preferences, the forms of the registered constraints
and data that fit. -/
def SetUp (model : Model Extended) (prefs : Preferences Extended) (s s' : UncertaintySet Extended) :
    Prop :=
  match s with
  | polyhedral plane d => ∃ forms p, plane.formsOf model = .ok forms
      ∧ Polyhedral.polyhedronOf model.parameters.length model.parameterBounds.1
        model.parameterBounds.2 d.constraints = .ok p
      ∧ s' = polyhedral { plane.prefer prefs with forms := forms }
        ⟨d.constraints, some model.parameterBounds, some p,
          (plane.prefer prefs).preferCuts.isTrue && !d.isBox,
          prefs.get Preferences.adversarySolver .absent⟩
  | budget plane b => ∃ forms, plane.formsOf model = .ok forms
      ∧ (∀ g ∈ b.givenNominal, g.shape = [model.parameters.length])
      ∧ (∀ g ∈ b.givenDeviation, g.shape = [model.parameters.length])
      ∧ Budget.unboundedParameter? (usedParameters (forms.map Prod.snd)) (b.dataFor model).1
        (b.dataFor model).2 = none
      ∧ s' = budget { plane.prefer prefs with forms := forms }
        { b with data := some (b.dataFor model) }
  | bare _ | scripted _ _ => False

/-- A setup takes the preferences and the forms, and leaves the data to an action of their own. -/
def setupPlane {α δ : Type} [Scalar α] (model : Model α) (prefs : Preferences α)
    (plane : CuttingPlane α) (d : δ) (c : CuttingPlane α → δ → UncertaintySet α)
    (a : CuttingPlane α → Action δ (Fault α) Unit) : Action (UncertaintySet α) (Fault α) Unit := do
  set (c (plane.prefer prefs) d)
  let forms ← liftM ((plane.prefer prefs).formsOf model)
  set (c { plane.prefer prefs with forms := forms } d)
  (a { plane.prefer prefs with forms := forms }).onState (fun _ => d)
    (fun d _ => c { plane.prefer prefs with forms := forms } d)

theorem yields_setupPlane {δ : Type} {plane : CuttingPlane Extended} {d : δ}
    {c : CuttingPlane Extended → δ → UncertaintySet Extended}
    {a : CuttingPlane Extended → Action δ (Fault Extended) Unit} {r : Unit} :
    (setupPlane model prefs plane d c a).Yields s r s' ↔
      ∃ forms d', plane.formsOf model = .ok forms
        ∧ (a { plane.prefer prefs with forms := forms }).Yields d r d'
        ∧ s' = c { plane.prefer prefs with forms := forms } d' := by
  unfold setupPlane
  simp only [Action.yields_set_bind, Action.yields_lift_bind, Action.yields_onState]
  constructor
  · rintro ⟨forms, hforms, d', hd, rfl⟩
    exact ⟨forms, d', hforms, hd, rfl⟩
  · rintro ⟨forms, d', hforms, hd, rfl⟩
    exact ⟨forms, hforms, d', hd, rfl⟩

theorem yields_setup (hs : s.IsGeometric) {report : Bool} {r : Unit} :
    (setup model report prefs).Yields s r s' ↔ SetUp model prefs s s' := by
  unfold setup
  rw [Action.yields_get_bind]
  cases s with
  | bare | scripted => cases hs
  | polyhedral plane d =>
    refine (yields_setupPlane (c := polyhedral)
      (a := fun p => Polyhedral.setup model prefs p.preferCuts.isTrue)).trans ?_
    simp only [Polyhedral.yields_setup, SetUp]
    constructor
    · rintro ⟨forms, d', hforms, ⟨p, hp, rfl⟩, rfl⟩
      exact ⟨forms, p, hforms, hp, rfl⟩
    · rintro ⟨forms, p, hforms, hp, rfl⟩
      exact ⟨forms, _, hforms, ⟨p, hp, rfl⟩, rfl⟩
  | budget plane b =>
    refine (yields_setupPlane (c := budget) (a := fun p =>
      Budget.setup (budget p b).kindName model (p.forms.map Prod.snd))).trans ?_
    simp only [Budget.yields_setup, SetUp]
    constructor
    · rintro ⟨forms, b', hforms, ⟨hnom, hdev, hfree, rfl⟩, rfl⟩
      exact ⟨forms, hforms, hnom, hdev, hfree, rfl⟩
    · rintro ⟨forms, hforms, hnom, hdev, hfree, rfl⟩
      exact ⟨forms, _, hforms, ⟨hnom, hdev, hfree, rfl⟩, rfl⟩

/-- Whether a setup succeeds does not depend on the preferences. -/
theorem SetUp.exists_for (h : SetUp model prefs s s') (prefs' : Preferences Extended) :
    ∃ t, SetUp model prefs' s t := by
  cases s with
  | bare | scripted => cases h
  | polyhedral plane d =>
    obtain ⟨forms, p, hforms, hp, -⟩ := h
    exact ⟨_, forms, p, hforms, hp, rfl⟩
  | budget plane b =>
    obtain ⟨forms, hforms, hnom, hdev, hfree, -⟩ := h
    exact ⟨_, forms, hforms, hnom, hdev, hfree, rfl⟩

theorem SetUp.core_eq (h : SetUp model prefs s s') : s'.core = s.core := by
  cases s with
  | bare | scripted => cases h
  | polyhedral plane d =>
    obtain ⟨forms, p, -, -, rfl⟩ := h
    rfl
  | budget plane b =>
    obtain ⟨forms, -, -, -, -, rfl⟩ := h
    rfl

/-- The cutting-plane state after a setup. -/
theorem SetUp.plane_spec (h : SetUp model prefs s s') : ∃ plane plane', s.plane? = some plane
    ∧ s'.plane? = some plane' ∧ plane'.Prepared model ∧ plane'.indices = plane.indices
    ∧ plane'.preferCuts = prefs.get Preferences.preferCuts (.truth false)
    ∧ plane'.cutTol = prefs.get Preferences.cutTol (.real Scalar.cutTol) := by
  cases s with
  | bare | scripted => cases h
  | polyhedral plane d =>
    obtain ⟨forms, p, hforms, -, rfl⟩ := h
    exact ⟨plane, _, rfl, rfl, hforms, rfl, rfl, rfl⟩
  | budget plane b =>
    obtain ⟨forms, hforms, -, -, -, rfl⟩ := h
    exact ⟨plane, _, rfl, rfl, hforms, rfl, rfl, rfl⟩

/-! ## After a setup -/

/-- The parameters that the functions a set is asked for may depend on. -/
def Usable (s : UncertaintySet Extended) (model : Model Extended) (i : ℕ) : Prop :=
  match s with
  | budget _ b => Budget.Counts (b.dataFor model).1 (b.dataFor model).2 i
  | _ => True

/-- A set that holds the data of a model, as its kind has them. -/
def HasData (s : UncertaintySet Extended) (model : Model Extended) : Prop :=
  match s with
  | polyhedral _ d => d.IsSetUp model
  | budget plane b => b.IsSetUp model (plane.forms.map Prod.snd)
  | bare _ | scripted _ _ => False

/-- A set after its setup: it has the preferences, its data, and forms that fit the model. -/
structure Ready (s : UncertaintySet Extended) (model : Model Extended)
    (prefs : Preferences Extended) (plane : CuttingPlane Extended) : Prop where
  plane_eq : s.plane? = some plane
  data : s.HasData model
  prepared : plane.Prepared model
  preferCuts : plane.preferCuts = prefs.get Preferences.preferCuts (.truth false)
  cutTol : plane.cutTol = prefs.get Preferences.cutTol (.real Scalar.cutTol)
  fits : ∀ p ∈ plane.forms, Fits p.2 model.parameters.length model.decisions.length
  onlyUses : ∀ p ∈ plane.forms, OnlyUses p.2 model.parameters.length (s.Usable model)

theorem SetUp.hasData (h : SetUp model prefs s s') (hs : s.Checked) : s'.HasData model := by
  cases s with
  | bare | scripted => cases h
  | polyhedral plane d =>
    obtain ⟨forms, p, -, hp, rfl⟩ := h
    exact ⟨rfl, p, rfl, hp⟩
  | budget plane b =>
    obtain ⟨forms, -, hnom, hdev, hfree, rfl⟩ := h
    exact Budget.isSetUp_of_yields "" (r := ⟨⟩) hs
      (Budget.yields_setup.mpr ⟨hnom, hdev, hfree, rfl⟩)

/-- The forms of a set that holds its data only use what it can be asked for. -/
theorem HasData.onlyUses {plane : CuttingPlane Extended} (h : s.HasData model)
    (hplane : s.plane? = some plane) {p : ℤ × SparseMatrix Extended} (hp : p ∈ plane.forms)
    (hq : Shaped p.2 model.parameters.length model.decisions.length) :
    OnlyUses p.2 model.parameters.length (s.Usable model) := by
  cases s with
  | bare | scripted => cases h
  | polyhedral => exact fun _ _ hA => absurd trivial hA
  | budget plane b =>
    obtain rfl := Option.some.inj hplane
    exact Budget.IsSetUp.onlyUses h (List.mem_map_of_mem hp) hq

theorem SetUp.ready (h : SetUp model prefs s s') (hs : s.Checked)
    (hsharp : model.SharpForms) : ∃ plane, s'.Ready model prefs plane := by
  obtain ⟨-, plane', -, hplane', hprep, -, hprefer, htol⟩ := h.plane_spec
  have hdata := h.hasData hs
  have hfits : ∀ p ∈ plane'.forms, Fits p.2 model.parameters.length model.decisions.length := by
    intro p hp
    obtain ⟨c, hc, hq⟩ := hprep.of_mem hp
    exact Mixed.fits_coefficientMatrix hq (hsharp _ _ hc _ hq)
  exact ⟨plane', hplane', hdata, hprep, hprefer, htol, hfits,
    fun p hp => hdata.onlyUses hplane' hp (hfits p hp).shaped⟩

/-- Worst case and reformulation of a set are right after its setup, if the set is not empty. -/
theorem Ready.exact {plane : CuttingPlane Extended} {solver : Solver Extended}
    (h : s.Ready model prefs plane) (hs : solver.Exact) (hwf : s.WellFormed model)
    (hne : ∃ u, s.Region model u)
    (hbounds : ∀ p ∈ model.parameters, Scalar.lt p.upper p.lower = false) :
    (s.geometryWith solver).Exact model.parameters.length (s.Usable model) (s.Region model) := by
  cases s with
  | bare | scripted => cases h.plane_eq
  | polyhedral plane d => exact Polyhedral.exact_geometry hs h.data hwf hne
  | budget plane b => exact Budget.exact_geometry hwf h.data hbounds

/-! ## Reformulation and cuts -/

/-- Reformulate on a bench unless cuts are preferred. -/
theorem yields_reform_of_plane {plane : CuttingPlane Extended} {g : Geometry Extended}
    {m m' : Master Extended} {supply supply' : Supply} {is : List ℤ} {r : Literal Extended} :
    (do
      if plane.preferCuts.isTrue then return .list []
      onMaster (plane.reform g model is)
      return reportOf is : Action (Bench Extended) (Fault Extended) (Literal Extended)).Yields
        ⟨s, m, supply⟩ r ⟨s', m', supply'⟩
    ↔ s' = s ∧ if plane.preferCuts.isTrue then r = reportOf [] ∧ m' = m ∧ supply' = supply
      else r = reportOf is
        ∧ (plane.reform g model is).Yields (m, supply) ⟨⟩ (m', supply') := by
  split_ifs with hp
  · rw [Action.yields_pure]
    constructor
    · rintro ⟨rfl, hb⟩
      obtain ⟨rfl, rfl, rfl⟩ := Bench.mk.inj hb
      exact ⟨rfl, rfl, rfl, rfl⟩
    · rintro ⟨rfl, rfl, rfl, rfl⟩
      exact ⟨rfl, rfl⟩
  · constructor
    · intro h
      obtain ⟨_, _, hon, h⟩ := Action.yields_bind.mp h
      obtain ⟨rfl, rfl⟩ := Action.yields_pure.mp h
      obtain ⟨u, hu, hb⟩ := Action.yields_onState.mp hon
      obtain ⟨rfl, rfl, rfl⟩ := Bench.mk.inj hb
      exact ⟨rfl, rfl, hu⟩
    · rintro ⟨rfl, rfl, hu⟩
      exact Action.yields_bind.mpr ⟨⟨⟩, _, Action.yields_onState.mpr ⟨_, hu, rfl⟩,
        Action.yields_pure.mpr ⟨rfl, rfl⟩⟩

/-- A set that prefers cuts reformulates nothing, any other one what it is asked for. -/
theorem yields_reform {plane : CuttingPlane Extended} (h : s.plane? = some plane)
    (solver : Solver Extended) {m m' : Master Extended} {supply supply' : Supply} {is : List ℤ}
    {r : Literal Extended} :
    (reform model is).Yields ⟨s, m, supply⟩ r ⟨s', m', supply'⟩
    ↔ s' = s ∧ if plane.preferCuts.isTrue then r = reportOf [] ∧ m' = m ∧ supply' = supply
      else r = reportOf is
        ∧ (plane.reform (s.geometryWith solver) model is).Yields (m, supply) ⟨⟩ (m', supply') := by
  cases s with
  | bare | scripted => cases h
  | polyhedral p d =>
    obtain rfl := Option.some.inj h
    exact yields_reform_of_plane
  | budget p b =>
    obtain rfl := Option.some.inj h
    exact yields_reform_of_plane

/-- The indices that a set reformulates out of those it undertakes. -/
def reformulated (prefs : Preferences Extended) (is : List ℤ) : List ℤ :=
  if (prefs.get Preferences.preferCuts (.truth false)).isTrue then [] else is

/-- A reformulation succeeds, and what it adds to the master encodes the constraints it covers. -/
theorem Ready.exists_reform {plane : CuttingPlane Extended} {solver : Solver Extended}
    {U : (ℕ → ℚ) → Prop} (h : s.Ready model prefs plane)
    (hg : (s.geometryWith solver).Exact model.parameters.length (s.Usable model) U)
    (is : List ℤ) (his : ∀ i ∈ reformulated prefs is, i ∈ plane.indices) (m : Master Extended)
    (supply : Supply) (hold : ∀ d, Decision.Owns model.decisions d → d.serial < supply.serial) :
    ∃ cs next, (reform model is).Yields ⟨s, m, supply⟩ (reportOf (reformulated prefs is))
        ⟨s, m.addConstraints cs, next⟩
      ∧ Encodes supply.serial next.serial cs fun y => ∀ i ∈ reformulated prefs is,
        model.HoldsRobustly U y i := by
  unfold reformulated at his ⊢
  rw [← h.preferCuts] at his ⊢
  split_ifs at his ⊢ with hp
  · refine ⟨[], supply, (yields_reform h.plane_eq solver).mpr ⟨rfl, ?_⟩,
      (Encodes.nil _).mono_congr (by simp)⟩
    rw [if_pos hp]
    exact ⟨rfl, by simp, rfl⟩
  · obtain ⟨cs, next, hy, henc⟩ := CuttingPlane.exists_reform hg h.prepared
      (fun p hp => ⟨h.fits p hp, h.onlyUses p hp⟩) is his m supply hold
    refine ⟨cs, next, (yields_reform h.plane_eq solver).mpr ⟨rfl, ?_⟩, henc⟩
    rw [if_neg hp]
    exact ⟨rfl, hy⟩

/-- Cuts are made by the plane of a set, which they leave as it is. -/
theorem perform_cuts {plane : CuttingPlane Extended} (h : s.plane? = some plane)
    (solver : Solver Extended) (values : Valuation Extended) (is : List ℤ) :
    (cuts model values is solver).perform s
      = (plane.cuts (s.geometryWith solver) model (model.point values) is, s) := by
  cases s with
  | bare | scripted => cases h
  | polyhedral | budget =>
    obtain rfl := Option.some.inj h
    rfl

/-- So are scenarios. -/
theorem perform_scenarios {plane : CuttingPlane Extended} (h : s.plane? = some plane)
    (solver : Solver Extended) (values : Valuation Extended) (is : List ℤ) :
    (scenarios model values is solver).perform s
      = ((plane.scenarios (s.geometryWith solver) model (model.point values) is).map
        (List.map some), s) := by
  have hlift : ∀ e : Except (Fault Extended) (List (Scenario Extended)),
      (do return (← e).map some : Action (UncertaintySet Extended) (Fault Extended) _).perform s
        = (e.map (List.map some), s) := by
    intro e
    cases e <;> rfl
  cases s with
  | bare | scripted => cases h
  | polyhedral | budget =>
    obtain rfl := Option.some.inj h
    exact hlift _

/-- The cuts that a set answers. -/
theorem yields_cuts {plane : CuttingPlane Extended} (h : s.plane? = some plane)
    {solver : Solver Extended} {values : Valuation Extended} {is : List ℤ}
    {cs : List (LinearConstraint Extended)} :
    (cuts model values is solver).Yields s cs s' ↔
      plane.cuts (s.geometryWith solver) model (model.point values) is = .ok cs ∧ s' = s := by
  rw [Action.Yields, perform_cuts h, Prod.mk.injEq, eq_comm (a := s)]

end UncertaintySet

end RobustOpt
