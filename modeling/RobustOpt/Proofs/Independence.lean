import RobustOpt.Proofs.Master
import RobustOpt.Proofs.Relocation
import RobustOpt.Proofs.Session

/-!
# Solving again

A solve does not depend on earlier successful solves of its model: it registers and sets up the
sets anew, and its master differs from that of a first solve in the columns of reformulations only.
What remains of earlier solves are the values of the decision variables that do not occur in the
first master of the solve, for cuts are made at these values.

## Main definitions

* `Workspace.Regular`: the sets of a model know worst cases, and its columns are not new.
* `Workspace.Again`: a workspace after solves of a model.
* `Workspace.stages`: how two resolutions of a model are related that start from the two.

## Main statements

* `Workspace.alike_run`: a resolution and the same one after solves are alike.
* `Workspace.again_afterAll`: successful solves leave such a workspace.
* `Workspace.attempt_independent`: the answer of a solve does not depend on earlier ones.
-/

namespace RobustOpt

open RobustOpt.Action

variable {α : Type}

/-! ## Models -/

theorem Decision.rename_of_mem_boundConstraints [Scalar α] {x : Decision α} {ρ : Column.Renaming}
    (h : ρ x.column = x.column) {c : LinearConstraint α} (hc : c ∈ x.boundConstraints) :
    c.rename ρ = c := by
  have hx : x.toAffine.rename ρ = x.toAffine := by
    rw [toAffine, Affine.rename, if_pos h, h]
  simp only [boundConstraints, List.mem_append, List.mem_ite_nil_right, List.mem_singleton] at hc
  rcases hc with ⟨-, rfl⟩ | ⟨-, rfl⟩
  · rw [LinearConstraint.rename_atMost, hx, Affine.rename]
  · exact LinearConstraint.rename_atMost_constant ρ hx _

namespace Model

/-- The model has constraints that a set is responsible for. -/
def Owns (m : Model α) (id : ℕ) : Prop := ∃ i < m.uncertain.length, m.setFor i = id

variable [Scalar α]

/-- The columns of a model: those of its objective, its linear constraints and its variables. -/
def columns (m : Model α) : List Column :=
  m.objective.expr.form.columns
    ++ m.certain.flatMap (fun c => c.sides.flatMap fun s => s.1.form.columns ++ s.2.form.columns)
    ++ m.decisions.map Decision.column

theorem column_mem_columns {m : Model α} {x : Decision α} (hx : x ∈ m.decisions) :
    x.column ∈ m.columns := by
  simp only [columns, List.mem_append, List.mem_map]
  exact .inr ⟨x, hx, rfl⟩

/-- The linear part of a model keeps its columns. -/
theorem master_rename {m : Model α} {ρ : Column.Renaming} (h : ∀ c ∈ m.columns, ρ c = c) :
    m.master.rename ρ = m.master := by
  have hobjective : m.objective.expr.rename ρ = m.objective.expr :=
    Affine.rename_eq_self ρ fun c hc => h c (by simp [columns, hc])
  have hcertain : ∀ c ∈ m.certain, c.rename ρ = c := fun c hc =>
    LinearConstraint.rename_eq_self ρ fun s hs => by
      have hside : ∀ d ∈ s.1.form.columns ++ s.2.form.columns, ρ d = d := fun d hd => h d (by
        simp only [columns, List.mem_append, List.mem_flatMap]
        exact .inl (.inr ⟨c, hc, s, hs, List.mem_append.mp hd⟩))
      exact ⟨Affine.rename_eq_self ρ fun d hd => hside d (List.mem_append_left _ hd),
        Affine.rename_eq_self ρ fun d hd => hside d (List.mem_append_right _ hd)⟩
  have hconstraints : ∀ c ∈ m.certain ++ m.decisions.flatMap Decision.boundConstraints,
      c.rename ρ = c := by
    intro c hc
    rcases List.mem_append.mp hc with hc | hc
    · exact hcertain c hc
    · obtain ⟨x, hx, hc⟩ := List.mem_flatMap.mp hc
      exact Decision.rename_of_mem_boundConstraints (h _ (column_mem_columns hx)) hc
  unfold master Master.ofConstraints Master.rename
  rw [hobjective, (List.map_congr_left hconstraints).trans (List.map_id _)]

/-- The values of the decision variables agree, with zero for those that are not there. -/
def Agree (m : Model α) (v v' : Valuation α) : Prop :=
  ∀ x ∈ m.decisions, (v' x.column).getD 0 = (v x.column).getD 0

theorem Agree.point_eq {m : Model α} {v v' : Valuation α} (h : m.Agree v v') :
    m.point v' = m.point v := by
  unfold point
  rw [List.map_congr_left h]

/-- After a solve the values agree if they did for the variables that are not in the problem. -/
theorem agree_assign {m : Model α} {ρ : Column.Renaming}
    (hdec : ∀ y ∈ m.decisions, ρ y.column = y.column) {cols : List Column} {v v' : Valuation α}
    (h : ∀ y ∈ m.decisions, y.column ∈ cols
      ∨ (v' y.column).getD 0 = (v y.column).getD 0) (x : Option (List ℚ)) :
    m.Agree (Master.assign cols x v) (Master.assign (cols.map ρ) x v') := by
  intro y hy
  by_cases hmem : y.column ∈ cols
  · rw [← Master.assign_rename ρ hmem x v v', hdec y hy]
  · have hmem' : y.column ∉ cols.map ρ := by
      rw [← hdec y hy, List.mem_map_of_injective ρ.injective]
      exact hmem
    rw [Master.assign_of_notMem hmem, Master.assign_of_notMem hmem']
    exact (h y hy).resolve_left hmem

end Model

/-! ## Workspaces -/

namespace Workspace

variable [Scalar α]

/-- The sets that own constraints of a model are of the two kinds that know worst cases, and the
columns of the model were created before the supply of new ones. -/
structure Regular (w : Workspace α) (m : Model α) : Prop where
  plane : ∀ j, m.Owns j → (w.uncertaintySet j).plane?.isSome = true
  serial : ∀ c ∈ m.columns, c.serial < w.supply.serial

/-- A set of a workspace with the constraints of a model registered to it, without what a setup
takes anew. -/
def enrolled (w : Workspace α) (m : Model α) (id : ℕ) : UncertaintySet α :=
  (Session.setAfter w m m.uncertain.length id).renewed

/-- A workspace after solves of a model: columns were taken from the supply, and the sets differ in
what a solve takes anew. -/
structure Again (m : Model α) (d e : ℕ) (w w' : Workspace α) : Prop where
  supply : w'.supply = w.supply.later d e
  enrolled : ∀ j, m.Owns j → w'.enrolled m j = w.enrolled m j

variable {w w' : Workspace α} {m : Model α} {d e : ℕ}

theorem isSome_plane?_enrolled (w : Workspace α) (m : Model α) (id : ℕ) :
    (w.enrolled m id).plane?.isSome = (w.uncertaintySet id).plane?.isSome :=
  (UncertaintySet.isSome_plane?_renewed _).trans Session.isSome_plane?_setAfter

theorem kindName_enrolled (w : Workspace α) (m : Model α) (id : ℕ) :
    (w.enrolled m id).kindName = (w.uncertaintySet id).kindName :=
  (UncertaintySet.kindName_renewed _).trans (UncertaintySet.kindName_registered _ _ _)

/-- What a setup keeps has the registrations already. -/
theorem enrolled_of_renewed {id : ℕ} (h : (w'.uncertaintySet id).renewed = w.enrolled m id) :
    w'.enrolled m id = w.enrolled m id := by
  unfold enrolled Session.setAfter at h ⊢
  rw [← UncertaintySet.registered_renewed, h, UncertaintySet.registered_renewed,
    UncertaintySet.registered_registered]

theorem Regular.plane_of_renewed (h : w.Regular m) {j : ℕ} (hj : m.Owns j) {u : UncertaintySet α}
    (hu : u.renewed = w.enrolled m j) : u.plane?.isSome = true := by
  rw [← UncertaintySet.isSome_plane?_renewed, hu, isSome_plane?_enrolled, h.plane j hj]

theorem Again.refl (m : Model α) (w : Workspace α) : Again m 0 0 w w := ⟨rfl, fun _ _ => rfl⟩

theorem Again.trans {w'' : Workspace α} {d' e' : ℕ} (h : Again m d e w w')
    (h' : Again m d' e' w' w'') : Again m (d + d') (e + e') w w'' where
  supply := by rw [h'.supply, h.supply, Supply.later_later]
  enrolled j hj := (h'.enrolled j hj).trans (h.enrolled j hj)

theorem Again.kindName_eq (h : Again m d e w w') {j : ℕ} (hj : m.Owns j) :
    (w'.uncertaintySet j).kindName = (w.uncertaintySet j).kindName := by
  rw [← kindName_enrolled w' m, h.enrolled j hj, kindName_enrolled]

theorem Regular.again (h : w.Regular m) (hw : Again m d e w w') : w'.Regular m where
  plane j hj := by
    rw [← isSome_plane?_enrolled w' m, hw.enrolled j hj, isSome_plane?_enrolled, h.plane j hj]
  serial c hc := hw.supply ▸ Nat.lt_of_lt_of_le (h.serial c hc) (Nat.le_add_right _ _)

theorem Regular.later_column (h : w.Regular m) {x : Decision α} (hx : x ∈ m.decisions) :
    Column.Renaming.later w.supply.serial d e x.column = x.column :=
  Column.Renaming.later_of_lt (h.serial _ (Model.column_mem_columns hx))

/-! ## Stages -/

omit [Scalar α] in
theorem alike_onSet {β : Type} {a a' : Action (UncertaintySet α) (Fault α) β}
    {T : β → UncertaintySet α → UncertaintySet α → Prop} {R : β → Session α → Session α → Prop}
    {s s' : Session α} {id : ℕ}
    (h : Alike T a a' (s.space.uncertaintySet id) (s'.space.uncertaintySet id))
    (hT : ∀ b u u', T b u u' →
      R b ⟨s.space.withSet id u, s.master⟩ ⟨s'.space.withSet id u', s'.master⟩) :
    Alike R (Session.onSet id a) (Session.onSet id a') s s' := by
  unfold Session.onSet
  exact Alike.onState h hT

theorem alike_onBench {β : Type} {a a' : Action (UncertaintySet.Bench α) (Fault α) β}
    {T : β → UncertaintySet.Bench α → UncertaintySet.Bench α → Prop}
    {R : β → Session α → Session α → Prop} {s s' : Session α} {id : ℕ}
    (h : Alike T a a' ⟨s.space.uncertaintySet id, s.currentMaster, s.space.supply⟩
      ⟨s'.space.uncertaintySet id, s'.currentMaster, s'.space.supply⟩)
    (hT : ∀ b c c', T b c c' →
      R b ⟨{ s.space.withSet id c.set with supply := c.supply }, some c.master⟩
        ⟨{ s'.space.withSet id c'.set with supply := c'.supply }, some c'.master⟩) :
    Alike R (Session.onBench id a) (Session.onBench id a') s s' := by
  unfold Session.onBench
  exact Alike.onState h hT

/-- A session after all registrations and the setup of some sets. -/
structure Enrolled (w : Workspace α) (m : Model α) (s : Session α) : Prop where
  values : s.space.values = w.values
  supply : s.space.supply = w.supply
  renewed : ∀ j, m.Owns j → (s.space.uncertaintySet j).renewed = w.enrolled m j

/-- Sessions after the setup: the sets are equal, and the masters have the same constraints, up to
the columns of reformulations. -/
structure Together (w : Workspace α) (m : Model α) (d e : ℕ) (s s' : Session α) : Prop where
  equal : ∀ j, m.Owns j → s'.space.uncertaintySet j = s.space.uncertaintySet j
  renewed : ∀ j, m.Owns j → (s.space.uncertaintySet j).renewed = w.enrolled m j
  relocated : w.supply.Relocated d e (s.currentMaster, s.space.supply)
    (s'.currentMaster, s'.space.supply)

/-- The stages of two resolutions of a model. The values agree from the first solve on, if they do
for the variables that are not in the first master. -/
def stages (w : Workspace α) (m : Model α) (d e : ℕ) (w' : Workspace α) :
    Participants.Stages (Session α) ℕ (LinearConstraint α) where
  registered k s s' := Session.Registered w m k s ∧ Session.Registered w' m k s'
  setUp done s s' := w.Enrolled m s ∧ w'.Enrolled m s' ∧
    ∀ j ∈ done, m.Owns j → s'.space.uncertaintySet j = s.space.uncertaintySet j
  reformed s s' := w.Together m d e s s'
    ∧ s.space.values = w.values ∧ s'.space.values = w'.values
  unsolved s s' := w.Together m d e s s' ∧ ∀ x ∈ m.decisions,
    x.column ∈ s.currentMaster.columns
      ∨ (s'.space.values x.column).getD 0 = (s.space.values x.column).getD 0
  solved s s' := w.Together m d e s s' ∧ m.Agree s.space.values s'.space.values
  cut c := c.rename (.later w.supply.serial d e) = c

section Steps

variable {s s' : Session α} {k : ℕ} {report : Bool} {prefs : Preferences α} {env : Environment α}

/-! ### Registration -/

omit [Scalar α] in
theorem registered_withSet (hs : Session.Registered w m k s)
    (hk : (w.uncertaintySet (m.setFor k)).plane?.isSome = true) :
    Session.Registered w m (k + 1) ⟨s.space.withSet (m.setFor k)
      (UncertaintySet.registered m.id (s.space.uncertaintySet (m.setFor k)) [(k : Int)]),
      s.master⟩ :=
  hs.succ fun _ => by rw [Session.setAfter_succ_self, hs.sets _ hk]

theorem alike_register (h : w.Regular m) (hw : Again m d e w w') (hk : k < m.uncertain.length)
    (hs : Session.Registered w m k s) (hs' : Session.Registered w' m k s') :
    Alike (fun _ t t' => Session.Registered w m (k + 1) t ∧ Session.Registered w' m (k + 1) t')
      ((w.participants m report prefs env).register (m.setFor k) k)
      ((w'.participants m report prefs env).register (m.setFor k) k) s s' := by
  have hj : m.Owns (m.setFor k) := ⟨k, hk, rfl⟩
  have hplane := h.plane _ hj
  have hplane' := (h.again hw).plane _ hj
  have hkind : (s'.space.uncertaintySet (m.setFor k)).kindName
      = (s.space.uncertaintySet (m.setFor k)).kindName := by
    rw [hs.sets _ hplane, hs'.sets _ hplane', Session.setAfter, Session.setAfter,
      UncertaintySet.kindName_registered, UncertaintySet.kindName_registered, hw.kindName_eq hj]
  refine alike_onSet (UncertaintySet.alike_register (hs.isSome_plane? hplane)
    (hs'.isSome_plane? hplane') hkind k) fun _ u u' hu => ?_
  obtain ⟨rfl, rfl⟩ := hu
  exact ⟨registered_withSet hs hplane, registered_withSet hs' hplane'⟩

theorem enrolled_of_registered (h : w.Regular m)
    (hs : Session.Registered w m m.uncertain.length s) : w.Enrolled m s where
  values := hs.values
  supply := hs.supply
  renewed j hj := by
    rw [hs.sets j (h.plane j hj)]
    rfl

/-! ### Setup -/

theorem Enrolled.withSet (hs : w.Enrolled m s) (h : w.Regular m) {id : ℕ} {u : UncertaintySet α}
    (hu : u.renewed = w.enrolled m id) : w.Enrolled m ⟨s.space.withSet id u, s.master⟩ where
  values := hs.values
  supply := hs.supply
  renewed j hj := by
    show ((s.space.withSet id u).uncertaintySet j).renewed = _
    by_cases hne : j = id
    · subst hne
      rw [uncertaintySet_withSet_self (h.plane_of_renewed hj (hs.renewed j hj)), hu]
    · rw [uncertaintySet_withSet_of_ne hne, hs.renewed j hj]

theorem alike_setup (h : w.Regular m) (hw : Again m d e w w') {done : List ℕ} {id : ℕ}
    (hid : m.Owns id) (hs : (w.stages m d e w').setUp done s s') :
    Alike (fun _ => (w.stages m d e w').setUp (done ++ [id]))
      ((w.participants m report prefs env).setup id)
      ((w'.participants m report prefs env).setup id) s s' := by
  obtain ⟨hs, hs', hequal⟩ := hs
  have hrenewed := hs.renewed id hid
  have hrenewed' := (hs'.renewed id hid).trans (hw.enrolled id hid)
  refine alike_onSet (UncertaintySet.alike_setup (h.plane_of_renewed hid hrenewed)
    (hrenewed'.trans hrenewed.symm) report) fun _ u u' hu => ?_
  obtain ⟨rfl, hu⟩ := hu
  refine ⟨hs.withSet h (hu.trans hrenewed),
    hs'.withSet (h.again hw) ((hu.trans hrenewed).trans (hw.enrolled id hid).symm),
    fun j hj hown => ?_⟩
  show (s'.space.withSet id u').uncertaintySet j = (s.space.withSet id u').uncertaintySet j
  by_cases hne : j = id
  · subst hne
    rw [uncertaintySet_withSet_self (h.plane_of_renewed hown (hs.renewed j hown)),
      uncertaintySet_withSet_self ((h.again hw).plane_of_renewed hown (hs'.renewed j hown))]
  · rw [uncertaintySet_withSet_of_ne hne, uncertaintySet_withSet_of_ne hne]
    exact hequal j ((List.mem_append.mp hj).resolve_right (by simpa using hne)) hown

theorem alike_start (h : w.Regular m) (hw : Again m d e w w')
    (hs : (w.stages m d e w').setUp (Registry.ofOwner m.setFor m.uncertain.length).owners s s') :
    Alike (fun _ => (w.stages m d e w').reformed) (w.participants m report prefs env).start
      (w'.participants m report prefs env).start s s' := by
  obtain ⟨hs, hs', hequal⟩ := hs
  refine alike_modify ⟨⟨fun j hj => hequal j (Registry.mem_owners_ofOwner.mpr hj) hj, hs.renewed,
    ⟨?_, ⟨0, 0, hs.supply⟩, ?_⟩⟩, hs.values, hs'.values⟩
  · exact (Model.master_rename fun c hc => Column.Renaming.later_of_lt (h.serial c hc)).symm
  · show s'.space.supply = s.space.supply.later d e
    rw [hs'.supply, hs.supply, hw.supply]

/-! ### Reformulations, solves and cuts -/

theorem alike_reform (h : w.Regular m) {id : ℕ} (hid : m.Owns id) (is : List ℕ)
    (hs : (w.stages m d e w').reformed s s') :
    Alike (fun _ => (w.stages m d e w').reformed)
      ((w.participants m report prefs env).reform id is)
      ((w'.participants m report prefs env).reform id is) s s' := by
  obtain ⟨hs, hvalues, hvalues'⟩ := hs
  refine alike_onBench (UncertaintySet.alike_reform (fun x hx => h.later_column hx) _
    (h.plane_of_renewed hid (hs.renewed id hid)) (hs.equal id hid) hs.relocated) fun _ c c' hc => ?_
  obtain ⟨hset, hset', hrelocated⟩ := hc
  have hspace : s.space.withSet id c.set = s.space := by rw [hset, withSet_uncertaintySet]
  have hspace' : s'.space.withSet id c'.set = s'.space := by
    rw [hset', ← hs.equal id hid, withSet_uncertaintySet]
  rw [hspace, hspace']
  exact ⟨⟨hs.equal, hs.renewed, hrelocated⟩, hvalues, hvalues'⟩

theorem alike_solve (h : w.Regular m) (hs : (w.stages m d e w').unsolved s s') :
    Alike (fun _ => (w.stages m d e w').solved) (w.participants m report prefs env).solve
      (w'.participants m report prefs env).solve s s' := by
  obtain ⟨hs, hvalues⟩ := hs
  have hp := Session.perform_solveMaster env.master s
  have hp' := Session.perform_solveMaster env.master s'
  rw [show s'.currentMaster = _ from hs.relocated.master] at hp'
  rcases s.currentMaster.solve_rename (.later w.supply.serial d e) s.space.values s'.space.values
    env.master with ⟨e, he, he'⟩ | ⟨n, x, hn, hn'⟩
  · rw [he] at hp
    rw [he'] at hp'
    exact .fails hp hp'
  · rw [hn] at hp
    rw [hn'] at hp'
    exact .yields hp hp' ⟨⟨hs.equal, hs.renewed, rfl, hs.relocated.grown, hs.relocated.later⟩,
      Model.agree_assign (fun y hy => h.later_column hy) hvalues x⟩

/-- Cuts leave the sessions as they are. -/
theorem alike_cut (h : w.Regular m) {id : ℕ} (hid : m.Owns id) (is : List ℕ)
    (hs : (w.stages m d e w').solved s s') :
    Alike (fun cs t t' => (w.stages m d e w').solved t t' ∧ ∀ c ∈ cs, (w.stages m d e w').cut c)
      ((w.participants m report prefs env).cut id is)
      ((w'.participants m report prefs env).cut id is) s s' := by
  obtain ⟨hs, hagree⟩ := hs
  have hcuts := UncertaintySet.alike_cuts (h.plane_of_renewed hid (hs.renewed id hid))
    hagree.point_eq (is.map Int.ofNat) env.adversary
  refine Alike.get_bind (alike_onSet (T := fun cs t t' => t = s.space.uncertaintySet id
    ∧ t' = s.space.uncertaintySet id ∧ ∀ c ∈ cs, (w.stages m d e w').cut c) ?_ fun cs u u' hu => ?_)
  · rw [hs.equal id hid]
    refine hcuts.mono ?_
    rintro cs t t' - ⟨rfl, rfl, plane, g, hcs⟩
    exact ⟨rfl, rfl, CuttingPlane.rename_of_mem_cuts (fun x hx => h.later_column hx) hcs⟩
  · obtain ⟨rfl, rfl, hcut⟩ := hu
    rw [withSet_uncertaintySet, ← hs.equal id hid, withSet_uncertaintySet]
    exact ⟨⟨hs, hagree⟩, hcut⟩

theorem alike_addCuts {cs : List (LinearConstraint α)} (hs : (w.stages m d e w').solved s s')
    (hcs : ∀ c ∈ cs, (w.stages m d e w').cut c) :
    Alike (fun _ => (w.stages m d e w').unsolved) ((w.participants m report prefs env).addCuts cs)
      ((w'.participants m report prefs env).addCuts cs) s s' := by
  obtain ⟨hs, hagree⟩ := hs
  refine alike_modify ⟨⟨hs.equal, hs.renewed, ?_, hs.relocated.grown, hs.relocated.later⟩,
    fun x hx => .inr (hagree x hx)⟩
  show s'.currentMaster.addConstraints cs = (s.currentMaster.addConstraints cs).rename _
  rw [Master.rename_addConstraints, (List.map_congr_left hcs).trans (List.map_id _),
    show s'.currentMaster = _ from hs.relocated.master]

theorem alike_scenario (h : w.Regular m) {id : ℕ} (hid : m.Owns id) (is : List ℕ)
    (hs : (w.stages m d e w').solved s s') :
    Alike (fun _ => (w.stages m d e w').solved)
      ((w.participants m report prefs env).scenario id is)
      ((w'.participants m report prefs env).scenario id is) s s' := by
  obtain ⟨hs, hagree⟩ := hs
  have hscenarios := UncertaintySet.alike_scenarios (h.plane_of_renewed hid (hs.renewed id hid))
    hagree.point_eq (is.map Int.ofNat) env.adversary
  refine Alike.get_bind (alike_onSet (T := fun _ t t' => t = s.space.uncertaintySet id
    ∧ t' = s.space.uncertaintySet id) ?_ fun _ u u' hu => ?_)
  · rw [hs.equal id hid]
    exact hscenarios
  · obtain ⟨rfl, rfl⟩ := hu
    rw [withSet_uncertaintySet, ← hs.equal id hid, withSet_uncertaintySet]
    exact ⟨hs, hagree⟩

/-- The sets after solves act as before them. -/
theorem simulates (h : w.Regular m) (hw : Again m d e w w') :
    (w.participants m report prefs env).Simulates (w'.participants m report prefs env)
      (w.stages m d e w') where
  count := rfl
  owner := rfl
  kindName _ hk := hw.kindName_eq hk
  supports k hk := funext fun phase =>
    (UncertaintySet.supports_of_plane ((h.again hw).plane k hk) phase).trans
      (UncertaintySet.supports_of_plane (h.plane k hk) phase).symm
  register _ hi _ _ hs := alike_register h hw hi hs.1 hs.2
  registered _ _ hs :=
    ⟨enrolled_of_registered h hs.1, enrolled_of_registered (h.again hw) hs.2, by simp⟩
  setup _ _ _ _ hinit hs := alike_setup h hw
    (Participants.Simulates.owns_of_mem_owners (hinit.subset (by simp))) hs
  start _ _ hs := alike_start h hw hs
  reform _ is _ _ hk hs := alike_reform h hk is hs
  solve _ _ hs := alike_solve h hs
  cut _ is _ _ hk hs := alike_cut h hk is hs
  addCuts _ _ _ hs hcs := alike_addCuts hs hcs
  scenario _ is _ _ hk hs := alike_scenario h hk is hs

end Steps

/-! ## Resolutions -/

variable {id : ℕ}

/-- A resolution is alike after solves, if the values agree of the decision variables that are not
in its first master. -/
theorem alike_run (h : w.Regular (w.model id)) (hw : Again (w.model id) d e w w') (a : Attempt α)
    (hfirst : ∀ s, w.Begins id a s → ∀ x ∈ (w.model id).decisions,
      x.column ∈ s.currentMaster.columns
        ∨ (w'.values x.column).getD 0 = (w.values x.column).getD 0) :
    Alike (fun _ t t' => w.Together (w.model id) d e t.world t'.world)
      (run (w.model id) a.settings a.prefs a.env) (run (w.model id) a.settings a.prefs a.env)
      ⟨⟨w, none⟩, none⟩ ⟨⟨w', none⟩, none⟩ := by
  refine Alike.get_bind ?_
  have hstart : ∀ v : Workspace α, Session.Registered v (w.model id) 0 ⟨v, none⟩ := fun v =>
    ⟨rfl, rfl, fun j _ => (Session.setAfter_zero _ _ _).symm⟩
  refine Alike.bind ((simulates h hw).alike_resolve ⟨hstart w, hstart w'⟩ ?_ _ _)
    fun r t t' _ ht => ?_
  · rintro r s out t t' hr hout ⟨htogether, hvalues, hvalues'⟩
    refine ⟨htogether, fun x hx => ?_⟩
    rw [hvalues, hvalues']
    exact hfirst t ⟨out, yields_bind.mpr ⟨r, s, hr, hout⟩⟩ x hx
  · refine Alike.get_bind ?_
    have hmaster : t'.world.currentMaster = _ := ht.1.relocated.master
    simp only [hmaster, Master.value?_rename, Master.length_constraints_rename]
    exact alike_pure ht.1

theorem attempt_fst (w : Workspace α) (id : ℕ) (a : Attempt α) :
    (w.attempt id a).1 = (w.runModel id a.settings a.prefs a.env).1 := by
  unfold attempt solve
  rcases w.runModel id a.settings a.prefs a.env with ⟨_ | _, g⟩ <;> rfl

/-- A successful solve leaves sets that differ in what the next one takes anew. -/
theorem again_attempt (h : w.Regular (w.model id)) {a : Attempt α} (ha : Succeeds id w a) :
    ∃ d e, Again (w.model id) d e w (w.attempt id a).2 := by
  have hrun := alike_run h (Again.refl _ w) a fun _ _ _ _ => .inr rfl
  unfold Succeeds attempt solve runModel at ha
  unfold attempt solve runModel
  cases hrun with
  | fails hfails =>
    rw [hfails] at ha
    obtain ⟨r, hr⟩ := ha
    cases hr
  | yields hyields _ htogether =>
    rw [show Action.perform _ _ = _ from hyields]
    obtain ⟨n, k, hgrown⟩ := htogether.relocated.grown
    exact ⟨n, k, hgrown, fun j hj => enrolled_of_renewed (htogether.renewed j hj)⟩

/-! ## Histories -/

/-- After successful solves a model has another result, and the workspace is one after solves. -/
theorem again_afterAll (hid : (w.model id).id = id) (h : w.Regular (w.model id))
    {as : List (Attempt α)}
    (has : Throughout (Succeeds id) w id as) :
    (∃ result, (w.afterAll id as).model id = { w.model id with result })
      ∧ ∃ d e, Again (w.model id) d e w (w.afterAll id as) := by
  induction as using List.reverseRecOn with
  | nil => exact ⟨⟨_, rfl⟩, 0, 0, .refl _ _⟩
  | append_singleton as a ih =>
    obtain ⟨has, ha, -⟩ := throughout_append.mp has
    obtain ⟨⟨result, hmodel⟩, d, e, hagain⟩ := ih has
    rw [afterAll_append]
    show (∃ result, ((w.afterAll id as).attempt id a).2.model id = _)
      ∧ ∃ d e, Again _ d e w ((w.afterAll id as).attempt id a).2
    have hid' : ((w.afterAll id as).model id).id = id := by rw [hmodel]; exact hid
    have hregular : (w.afterAll id as).Regular ((w.afterAll id as).model id) := by
      rw [hmodel]
      exact ⟨(h.again hagain).plane, (h.again hagain).serial⟩
    obtain ⟨result', hmodel', -⟩ := model_attempt hid' a
    obtain ⟨d', e', hagain'⟩ := again_attempt hregular ha
    rw [hmodel] at hmodel' hagain'
    exact ⟨⟨result', hmodel'⟩, _, _, hagain.trans ⟨hagain'.supply, hagain'.enrolled⟩⟩

/-- The answer of a solve does not depend on earlier successful solves, if every decision variable
is in its first master or has the value it had before them. -/
theorem attempt_independent (hid : (w.model id).id = id) (h : w.Regular (w.model id))
    {as : List (Attempt α)}
    (has : Throughout (Succeeds id) w id as) (a : Attempt α)
    (hfirst : ∀ s, w.Begins id a s → ∀ x ∈ (w.model id).decisions,
      x.column ∈ s.currentMaster.columns
        ∨ ((w.afterAll id as).values x.column).getD 0 = (w.values x.column).getD 0) :
    ((w.afterAll id as).attempt id a).1 = (w.attempt id a).1 := by
  obtain ⟨⟨result, hmodel⟩, d, e, hagain⟩ := again_afterAll hid h has
  rw [attempt_fst, attempt_fst, runModel, hmodel]
  exact (alike_run h hagain a hfirst).answer_eq.symm

end Workspace

/-! ## A decision variable that cuts do not see

The greatest stake, limited by two constraints that pull the hedge in opposite directions. The
first master for cuts has the stake alone, so the first cuts are made at the hedge that an earlier
solve left. From no hedge at all it takes one more round of them. -/

namespace Hedge

def stake : Decision Extended :=
  ⟨0, 0, "x", .negInf, .finite 5, ⟨0, none, .decision 0, false, false⟩⟩

def hedge : Decision Extended :=
  ⟨0, 1, "y", .negInf, .posInf, ⟨1, none, .decision 1, false, false⟩⟩

def rate : Parameter Extended := ⟨0, 0, .text "u", .finite 1, .finite 2⟩

def model : Model Extended where
  id := 0
  defaultSet := 0
  decisions := [stake, hedge]
  parameters := [rate]
  certain := []
  uncertain := [
    ⟨0, ⟨⟨[(stake, ⟨[], 1⟩), (hedge, ⟨[(rate, 1)], 0⟩)], ⟨[], 0⟩⟩, .negInf, .finite 3⟩⟩,
    ⟨1, ⟨⟨[(stake, ⟨[], 1⟩), (hedge, ⟨[(rate, -1)], 0⟩)], ⟨[], 0⟩⟩, .negInf, .finite 1⟩⟩]
  assignment := []
  objective := ⟨.maximize, stake.toAffine⟩
  result := none

def workspace : Workspace Extended := ⟨[model], [.newPolyhedral], fun _ => none, ⟨2, 0⟩⟩

/-- The rounds of cuts and the number of cuts of a call. -/
def report (w : Workspace Extended) (a : Attempt Extended) : Option (ℕ × ℕ) :=
  (w.attempt 0 a).1.toOption.map fun r => (r.iterations, r.cuts)

theorem succeeds_of_report {w : Workspace Extended} {a : Attempt Extended} {p : ℕ × ℕ}
    (h : report w a = some p) : Workspace.Succeeds 0 w a := by
  unfold report at h
  unfold Workspace.Succeeds
  cases hr : (w.attempt 0 a).1 with
  | error e =>
    rw [hr] at h
    cases h
  | ok r => exact ⟨r, rfl⟩

set_option maxRecDepth 100000 in
theorem report_preferring :
    report workspace (.preferring true) = some (2, 4)
      ∧ report workspace (.preferring false) = some (0, 0)
      ∧ report (workspace.afterAll 0 [.preferring false]) (.preferring true) = some (1, 2) := by
  decide +kernel

theorem regular : workspace.Regular (workspace.model 0) where
  plane := by
    rintro j ⟨i, -, rfl⟩
    rfl
  serial := by decide

/-- Dual constraints have all decision variables. -/
theorem mem_columns_of_begins {s : Session Extended}
    (h : workspace.Begins 0 (.preferring false) s) :
    ∀ x ∈ (workspace.model 0).decisions, x.column ∈ s.currentMaster.columns := by
  obtain ⟨out, hs⟩ := h
  obtain rfl : ((workspace.opening 0 (.preferring false)).perform ⟨workspace, none⟩).2 = s :=
    congrArg Prod.snd hs
  decide +kernel

/-- After a solve by cuts, dual constraints give the answer they give at once. -/
theorem dual_attempt_independent :
    (workspace.model 0).id = 0 ∧ workspace.Regular (workspace.model 0)
      ∧ Workspace.Throughout (Workspace.Succeeds 0) workspace 0 [.preferring true]
      ∧ ((workspace.afterAll 0 [.preferring true]).attempt 0 (.preferring false)).1
        = (workspace.attempt 0 (.preferring false)).1 := by
  have has : Workspace.Throughout (Workspace.Succeeds 0) workspace 0 [.preferring true] :=
    ⟨succeeds_of_report report_preferring.1, trivial⟩
  exact ⟨rfl, regular, has, Workspace.attempt_independent rfl regular has _ fun s hs x hx =>
    .inl (mem_columns_of_begins hs x hx)⟩

/-- Cuts need not give the answer they give at once, after a solve by dual constraints. -/
theorem not_attempt_independent :
    ¬ ∀ (as : List (Attempt Extended)) (a : Attempt Extended),
      Workspace.Throughout (Workspace.Succeeds 0) workspace 0 as →
      ((workspace.afterAll 0 as).attempt 0 a).1 = (workspace.attempt 0 a).1 := by
  intro h
  obtain ⟨hcuts, hdual, hagain⟩ := report_preferring
  have heq := h [.preferring false] (.preferring true) ⟨succeeds_of_report hdual, trivial⟩
  unfold report at hcuts hagain
  rw [heq, hcuts] at hagain
  exact absurd hagain (by decide)

end Hedge

end RobustOpt
