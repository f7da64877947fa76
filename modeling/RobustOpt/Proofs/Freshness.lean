import RobustOpt.Operand.Routing
import RobustOpt.Proofs.Independence
import RobustOpt.Proofs.Registration

/-!
# Sets between solves

Models grow, share sets, and are solved again and again, also after a solve that failed halfway. A
set keeps much of each of these solves. Once the next one has set it up, nothing of it is left: the
set is the same as one that was built and constrained alike, and never took part in a solve before.

## Main definitions

* `Change`, `Change.apply`: what can be done to models and sets between solves.
* `Workspace.History`: a workspace after changes and solves, and the sets without the solves.
* `Workspace.enrollment`: the phases of a solve up to the setup.
* `UncertaintySet.enroll`: what these phases do to a single set.

## Main statements

* `Workspace.History.orderly`: what sets have noted between solves.
* `Workspace.History.enrollment_fresh`: after the setup of a solve the sets are as good as new.
* `Workspace.History.attempt_eq`: so the solve answers as with sets that are new.
-/

namespace RobustOpt

open RobustOpt.Action

variable {α : Type}

/-! ## Sets as they are built -/

theorem Budget.data_of_build [Scalar α] {gamma nominal deviation : Literal α} {b : Budget α}
    (h : build gamma nominal deviation = .ok b) : b.data = none := by
  have hgiven : ∀ (x : Except (Fault α) α) (y z : Except (Fault α) (Option (Grid α))),
      (do return ⟨← x, ← y, ← z, none⟩ : Except (Fault α) (Budget α)) = .ok b →
        b.data = none := by
    intro x y z h
    obtain ⟨_, -, h⟩ := bind_eq_ok.mp h
    obtain ⟨_, -, h⟩ := bind_eq_ok.mp h
    obtain ⟨_, -, h⟩ := bind_eq_ok.mp h
    exact (congrArg data (pure_eq_ok.mp h)).symm
  obtain ⟨negative, -, h⟩ := bind_eq_ok.mp h
  cases negative with
  | true => cases h
  | false =>
    cases deviation with
    | absent => exact hgiven _ _ _ h
    | _ =>
      obtain ⟨negative, -, h⟩ := bind_eq_ok.mp h
      cases negative with
      | true => cases h
      | false => exact hgiven _ _ _ h

namespace UncertaintySet

variable [Scalar α] {s u : UncertaintySet α}

/-- The sets as they are built. -/
inductive Built : UncertaintySet α → Prop
  | polyhedral : Built newPolyhedral
  | budget {gamma nominal deviation : Literal α} {b : Budget α}
      (h : Budget.build gamma nominal deviation = .ok b) : Built (newBudget b)
  | bare (phases : List Phase) : Built (.bare phases)
  | scripted (phases : List Phase) (script : Script α) : Built (newScripted phases script)

theorem Built.core_eq (h : s.Built) : s.core = s := by
  cases h with
  | polyhedral | bare | scripted => rfl
  | budget hb => rw [newBudget, core, ← Budget.data_of_build hb]

theorem core_core (s : UncertaintySet α) : s.core.core = s.core := by
  cases s <;> rfl

/-- A set that took part in no solve has noted nothing. -/
theorem notes_core (s : UncertaintySet α) (models : ℕ → Model α) (id : ℕ) :
    s.core.Notes models id := by
  intro p hp m hm
  cases s with
  | polyhedral | budget =>
    obtain rfl := Option.some.inj hp
    cases hm
  | bare | scripted => cases hp

theorem Built.notes (h : s.Built) (models : ℕ → Model α) (id : ℕ) : s.Notes models id :=
  h.core_eq ▸ notes_core s models id

/-! ### Constraints on the parameters -/

theorem core_addSetConstraint (s : UncertaintySet α) (c : SetConstraint α) :
    s.core.addSetConstraint c = (s.addSetConstraint c).map core := by
  cases s <;> rfl

theorem core_addUncertainConstraint (s : UncertaintySet α) (c : UncertainConstraint α) :
    s.core.addUncertainConstraint c = (s.addUncertainConstraint c).map core := by
  have hkind : s.core.kindName = s.kindName := by cases s <;> rfl
  unfold addUncertainConstraint
  rw [hkind]
  cases c.hasDecisions with
  | true => rfl
  | false =>
    cases c.toSetConstraint with
    | error => rfl
    | ok k => exact core_addSetConstraint s k

omit [Scalar α] in
theorem registration_of_addSetConstraint {c : SetConstraint α}
    (h : s.addSetConstraint c = .ok u) : u.registration = s.registration := by
  cases s with
  | polyhedral =>
    obtain rfl := Except.ok.inj h
    rfl
  | budget | bare | scripted => cases h

theorem registration_of_addUncertainConstraint {c : UncertainConstraint α}
    (h : s.addUncertainConstraint c = .ok u) : u.registration = s.registration := by
  unfold addUncertainConstraint at h
  split at h
  · cases h
  · obtain ⟨k, -, h⟩ := bind_eq_ok.mp h
    exact registration_of_addSetConstraint h

end UncertaintySet

/-! ## Growing models -/

/-- The second model has more constraints than the first. -/
structure Model.Grows (m m' : Model α) : Prop where
  id : m'.id = m.id
  length : m.uncertain.length ≤ m'.uncertain.length
  setFor : ∀ i < m.uncertain.length, m'.setFor i = m.setFor i

/-- A model with the same constraints, of the same sets. -/
theorem Model.Grows.of_uncertain {m m' : Model α} (hid : m'.id = m.id)
    (huncertain : m'.uncertain = m.uncertain) (hassignment : m'.assignment = m.assignment)
    (hdefault : m'.defaultSet = m.defaultSet) : m.Grows m' where
  id := hid
  length := huncertain ▸ le_rfl
  setFor i _ := by rw [Model.setFor, Model.setFor, hassignment, hdefault]

theorem Model.Grows.refl (m : Model α) : m.Grows m := .of_uncertain rfl rfl rfl rfl

/-- A further constraint leaves those before it with their sets. -/
theorem Model.grows_append (m : Model α) (c : Posed α) (given : Option ℕ) : m.Grows
    { m with
      uncertain := m.uncertain ++ [c]
      assignment := match given with
        | some s => m.assignment ++ [(m.uncertain.length, s)]
        | none => m.assignment } where
  id := rfl
  length := by simp
  setFor i hi := by
    cases given with
    | none => rfl
    | some s => simp [Model.setFor, List.find?_append, hi.ne']

theorem Model.Grows.ownedBelow_eq {m m' : Model α} (h : m.Grows m') {id k : ℕ}
    (hk : k ≤ m.uncertain.length) : m'.ownedBelow id k = m.ownedBelow id k := by
  unfold ownedBelow
  rw [List.filter_congr fun i hi => ?_]
  rw [h.setFor i ((List.mem_range.mp hi).trans_le hk)]

theorem UncertaintySet.Notes.grows {s : UncertaintySet α} {models models' : ℕ → Model α} {id : ℕ}
    (hs : s.Notes models id) (h : ∀ m, (models m).Grows (models' m)) : s.Notes models' id := by
  intro p hp m hm
  obtain ⟨k, hk, hindices⟩ := hs p hp m hm
  exact ⟨k, hk.trans (h m).length, hindices.trans ((h m).ownedBelow_eq hk).symm⟩

namespace Workspace

variable [Scalar α] {w : Workspace α} {id : ℕ}

/-- The workspace with other sets. -/
def withSets (w : Workspace α) (sets : List (UncertaintySet α)) : Workspace α := { w with sets }

/-- Models go by their names, and what sets have noted are the first constraints they own. -/
structure Orderly (w : Workspace α) : Prop where
  named : ∀ id, (w.model id).id = id
  notes : ∀ id, (w.uncertaintySet id).Notes w.model id

theorem orderly_empty : (empty : Workspace α).Orderly where
  named _ := rfl
  notes _ := (UncertaintySet.Built.bare []).notes _ _

theorem Orderly.congr {w' : Workspace α} (h : w.Orderly) (hmodels : w'.models = w.models)
    (hsets : w'.sets = w.sets) : w'.Orderly := by
  have hmodel : w'.model = w.model := funext fun id => by rw [model, model, hmodels]
  have hset : w'.uncertaintySet = w.uncertaintySet := funext fun id => by
    rw [uncertaintySet, uncertaintySet, hsets]
  exact ⟨hmodel ▸ h.named, hmodel ▸ hset ▸ h.notes⟩

theorem Orderly.addSet (h : w.Orderly) {s : UncertaintySet α} (hs : s.Built) :
    (w.addSet s).2.Orderly where
  named := h.named
  notes id := by
    have hset : (w.addSet s).2.uncertaintySet id = w.uncertaintySet id
        ∨ (w.addSet s).2.uncertaintySet id = s := by
      unfold Workspace.addSet uncertaintySet
      rcases Nat.lt_or_ge id w.sets.length with hlt | hge
      · exact .inl (by rw [List.getElem?_append_left hlt])
      · rw [List.getElem?_append_right hge, List.getElem?_eq_none hge]
        cases id - w.sets.length with
        | zero => exact .inr rfl
        | succ => exact .inl rfl
    rcases hset with hset | hset <;> rw [hset]
    exacts [h.notes id, hs.notes _ id]

/-- Models that have more constraints than before, under their names. -/
theorem Orderly.grows (h : w.Orderly) {models : List (Model α)}
    (hgrows : ∀ id, (w.model id).Grows (({ w with models } : Workspace α).model id)) :
    ({ w with models } : Workspace α).Orderly where
  named id := (hgrows id).id.trans (h.named id)
  notes id := (h.notes id).grows hgrows

theorem Orderly.addModel (h : w.Orderly) (set : ℕ) :
    ({ w with models := w.models ++ [Model.new w.models.length set] } : Workspace α).Orderly := by
  refine h.grows fun id => ?_
  unfold model
  rcases Nat.lt_or_ge id w.models.length with hlt | hge
  · rw [List.getElem?_append_left hlt]
    exact .refl _
  · rw [List.getElem?_append_right hge, List.getElem?_eq_none hge]
    cases hid : id - w.models.length with
    | zero =>
      obtain rfl : id = w.models.length := by omega
      exact ⟨rfl, Nat.zero_le _, fun i hi => absurd hi (Nat.not_lt_zero i)⟩
    | succ => exact .refl _

theorem Orderly.withModel (h : w.Orderly) {m : Model α} (hm : (w.model id).Grows m) :
    (w.withModel m).Orderly := by
  obtain rfl : m.id = id := hm.id.trans (h.named id)
  refine h.grows fun j => ?_
  by_cases hj : m.id = j
  · subst hj
    rcases Nat.lt_or_ge m.id w.models.length with hlt | hge
    · simpa [model, hlt] using hm
    · rw [List.set_eq_of_length_le hge]
      exact .refl _
  · simp only [model, List.getElem?_set_ne hj]
    exact .refl _

theorem Orderly.withSet (h : w.Orderly) {u : UncertaintySet α}
    (hu : u.registration = (w.uncertaintySet id).registration) : (w.withSet id u).Orderly where
  named := h.named
  notes j := (h.notes j).of_registration_eq (uncertaintySet_congr (map_sets_withSet _ hu) j)

end Workspace

/-! ## Changes -/

/-- What can be done to models and sets between solves. Sets come as they are built, constraints one
at a time. -/
inductive Change (α : Type) [Scalar α] where
  | set (s : UncertaintySet α) (built : s.Built)
  | model (given : Option ℕ)
  | decision (id : ℕ) (name lower upper : Literal α) (integer : Bool)
  | parameter (id : ℕ) (name lower upper : Literal α)
  | constraint (id : ℕ) (given : Option ℕ) (c : Operand α)
  | setConstraint (id : ℕ) (c : Operand α)
  | objective (id : ℕ) (sense : Literal α) (v : Operand α)
  | value (x : Decision α) (v : Option α)

namespace Change

variable [Scalar α]

/-- The workspace that an operation answers, or the old one if it is refused. -/
def accept (w : Workspace α) : Except (Fault α) (Workspace α) → Workspace α
  | .ok w' => w'
  | .error _ => w

/-- The workspace after a change. -/
def apply (w : Workspace α) : Change α → Workspace α
  | set s _ => (w.addSet s).2
  | model given => (w.addModel given).2
  | decision id name lower upper integer =>
    accept w ((w.addDecision id name lower upper integer).map Prod.snd)
  | parameter id name lower upper => accept w ((w.addParameter id name lower upper).map Prod.snd)
  | constraint id given c => ((Workspace.addConstraint id given c).perform w).2
  | setConstraint id c => ((Workspace.addToSet id c).perform w).2
  | objective id sense v => accept w (w.setObjectiveTo id sense v)
  | value x v => accept w (w.assign x v)

/-- The workspace after changes, one after the other. -/
def applyAll (w : Workspace α) (cs : List (Change α)) : Workspace α :=
  cs.foldl (fun w c => c.apply w) w

end Change

/-! ## Changes of fresh sets

What a change does depends on the models, and on what sets are rather than on what they keep of
solves. So it does the same to sets that took part in solves and to sets that did not. -/

namespace Workspace

variable [Scalar α] {w : Workspace α}

/-- The workspace with its sets as they were built and constrained. -/
def fresh (w : Workspace α) : Workspace α := w.withSets (w.sets.map UncertaintySet.core)

theorem uncertaintySet_fresh (w : Workspace α) (id : ℕ) :
    w.fresh.uncertaintySet id = (w.uncertaintySet id).core := by
  unfold fresh withSets uncertaintySet
  rw [List.getElem?_map]
  cases w.sets[id]? <;> rfl

theorem Orderly.fresh (h : w.Orderly) : w.fresh.Orderly where
  named := h.named
  notes id := by
    rw [uncertaintySet_fresh]
    exact UncertaintySet.notes_core _ _ _

theorem fresh_withSet (w : Workspace α) (id : ℕ) (u : UncertaintySet α) :
    (w.withSet id u).fresh = w.fresh.withSet id u.core := by
  simp [fresh, withSets, withSet, List.map_set]

/-- A workspace is in order, and another one is the same with fresh sets. -/
structure Parallel (w w₀ : Workspace α) : Prop where
  orderly : w.Orderly
  fresh_eq : w₀ = w.fresh

/-- A model gets more constraints, or something else that sets do not notice. -/
theorem parallel_withModel (h : w.Orderly) {id : ℕ} {m : Model α} (hm : (w.model id).Grows m) :
    Parallel (w.withModel m) (w.fresh.withModel m) := ⟨h.withModel hm, rfl⟩

/-! ### Constraints -/

/-- A set is constrained, or the constraint is refused. -/
theorem parallel_accept (h : w.Orderly) {id : ℕ} {r r₀ : Except (Fault α) (UncertaintySet α)}
    (hr : ∀ u, r = .ok u → u.registration = (w.uncertaintySet id).registration)
    (hr₀ : r₀ = r.map UncertaintySet.core) :
    Parallel (Change.accept w (r.map (w.withSet id)))
      (Change.accept w.fresh (r₀.map (w.fresh.withSet id))) := by
  subst hr₀
  cases r with
  | error e => exact ⟨h, rfl⟩
  | ok u => exact ⟨h.withSet (hr u rfl), (fresh_withSet w id u).symm⟩

theorem parallel_addSetConstraint (h : w.Orderly) (id : ℕ) (c : SetConstraint α) :
    Parallel (Change.accept w (w.addSetConstraint id c))
      (Change.accept w.fresh (w.fresh.addSetConstraint id c)) := by
  refine parallel_accept h (fun u hu => UncertaintySet.registration_of_addSetConstraint hu) ?_
  rw [uncertaintySet_fresh, UncertaintySet.core_addSetConstraint]

theorem parallel_addUncertainToSet (h : w.Orderly) (id : ℕ) (c : UncertainConstraint α) :
    Parallel (Change.accept w (w.addUncertainToSet id c))
      (Change.accept w.fresh (w.fresh.addUncertainToSet id c)) := by
  refine parallel_accept h
    (fun u hu => UncertaintySet.registration_of_addUncertainConstraint hu) ?_
  rw [uncertaintySet_fresh, UncertaintySet.core_addUncertainConstraint]

omit [Scalar α] in
/-- An operation that may be refused, and then changes nothing. -/
theorem snd_lift_bind {β γ : Type} (e : Except (Fault α) β)
    (f : β → Action (Workspace α) (Fault α) γ) (w : Workspace α) :
    ((liftM e >>= f).perform w).2
      = Change.accept w (e.map fun b => ((f b).perform w).2) := by
  rw [perform_lift_bind]
  cases e <;> rfl

theorem snd_addConstraint (w : Workspace α) (id : ℕ) (given : Option ℕ) (c : Operand α) :
    ((addConstraint id given c).perform w).2 = match c with
      | .linear c => w.addLinear id c
      | .setConstraint c =>
        Change.accept w (w.addSetConstraint (given.getD (w.model id).defaultSet) c)
      | .uncertainConstraint c => Change.accept w ((w.pose id c given).map Prod.snd)
      | _ => w := by
  unfold addConstraint
  rw [perform_get_bind]
  cases c with
  | setConstraint c =>
    refine (snd_lift_bind (w.addSetConstraint (given.getD (w.model id).defaultSet) c) _ w).trans ?_
    exact congrArg (Change.accept w) (congrFun Except.map_id _)
  | uncertainConstraint c => exact snd_lift_bind (w.pose id c given) _ w
  | literal v => cases v <;> rfl
  | _ => rfl

theorem snd_addToSet (w : Workspace α) (target : ℕ) (c : Operand α) :
    ((addToSet target c).perform w).2 = match c with
      | .setConstraint c => Change.accept w (w.addSetConstraint target c)
      | .uncertainConstraint c => Change.accept w (w.addUncertainToSet target c.constraint)
      | _ => w := by
  unfold addToSet
  rw [perform_get_bind]
  cases c with
  | setConstraint c =>
    refine (snd_lift_bind (w.addSetConstraint target c) _ w).trans ?_
    exact congrArg (Change.accept w) (congrFun Except.map_id _)
  | uncertainConstraint c =>
    refine (snd_lift_bind (w.addUncertainToSet target c.constraint) _ w).trans ?_
    exact congrArg (Change.accept w) (congrFun Except.map_id _)
  | literal v => cases v <;> rfl
  | _ => rfl

/-- A constraint goes to a set, to the linear part of a model, or to its uncertain constraints. -/
theorem parallel_pose (h : w.Orderly) (id : ℕ) (c : Posed α) (given : Option ℕ) :
    Parallel (Change.accept w ((w.pose id c given).map Prod.snd))
      (Change.accept w.fresh ((w.fresh.pose id c given).map Prod.snd)) := by
  have haccept : ∀ (v : Workspace α) (e : Except (Fault α) (Workspace α)), Change.accept v
      ((do return (none, ← e) : Except (Fault α) (Option ℕ × Workspace α)).map Prod.snd)
        = Change.accept v e := fun v e => by cases e <;> rfl
  unfold pose
  cases c.constraint.hasDecisions with
  | false =>
    have hset := parallel_addUncertainToSet h (given.getD (w.model id).defaultSet) c.constraint
    rw [← haccept w, ← haccept w.fresh] at hset
    exact hset
  | true =>
    cases c.constraint.isCertain with
    | true => exact parallel_withModel h (.of_uncertain rfl rfl rfl rfl)
    | false => exact parallel_withModel h ((w.model id).grows_append c given)

theorem parallel_addConstraint (h : w.Orderly) (id : ℕ) (given : Option ℕ) (c : Operand α) :
    Parallel ((addConstraint id given c).perform w).2
      ((addConstraint id given c).perform w.fresh).2 := by
  rw [snd_addConstraint, snd_addConstraint]
  cases c with
  | linear c => exact parallel_withModel h (.of_uncertain rfl rfl rfl rfl)
  | setConstraint c => exact parallel_addSetConstraint h _ c
  | uncertainConstraint c => exact parallel_pose h id c given
  | _ => exact ⟨h, rfl⟩

theorem parallel_addToSet (h : w.Orderly) (id : ℕ) (c : Operand α) :
    Parallel ((addToSet id c).perform w).2 ((addToSet id c).perform w.fresh).2 := by
  rw [snd_addToSet, snd_addToSet]
  cases c with
  | setConstraint c => exact parallel_addSetConstraint h id c
  | uncertainConstraint c => exact parallel_addUncertainToSet h id c.constraint
  | _ => exact ⟨h, rfl⟩

/-! ### Other changes -/

theorem parallel_addSet (h : w.Orderly) {s : UncertaintySet α} (hs : s.Built) :
    Parallel (w.addSet s).2 (w.fresh.addSet s).2 := by
  refine ⟨h.addSet hs, ?_⟩
  simp [addSet, fresh, withSets, hs.core_eq]

theorem parallel_addModel (h : w.Orderly) (given : Option ℕ) :
    Parallel (w.addModel given).2 (w.fresh.addModel given).2 := by
  cases given with
  | some s => exact ⟨h.addModel s, rfl⟩
  | none =>
    have hset := parallel_addSet h .polyhedral
    refine ⟨hset.orderly.addModel w.sets.length, ?_⟩
    simp [addModel, addSet, fresh, withSets, UncertaintySet.Built.polyhedral.core_eq]

theorem parallel_addDecision (h : w.Orderly) (id : ℕ) (name lower upper : Literal α)
    (integer : Bool) :
    Parallel (Change.accept w ((w.addDecision id name lower upper integer).map Prod.snd))
      (Change.accept w.fresh
        ((w.fresh.addDecision id name lower upper integer).map Prod.snd)) := by
  simp only [addDecision, show w.fresh.model id = w.model id from rfl]
  generalize nameOr "x" (w.model id).decisions.length name = label
  cases checkBounds label lower upper with
  | error e => exact ⟨h, rfl⟩
  | ok b =>
    cases label with
    | text l =>
      have hgrows : ∀ decisions, (w.model id).Grows { w.model id with decisions } :=
        fun _ => .of_uncertain rfl rfl rfl rfl
      exact ⟨(h.withModel (hgrows _)).congr rfl rfl, rfl⟩
    | _ => exact ⟨h, rfl⟩

theorem parallel_addParameter (h : w.Orderly) (id : ℕ) (name lower upper : Literal α) :
    Parallel (Change.accept w ((w.addParameter id name lower upper).map Prod.snd))
      (Change.accept w.fresh ((w.fresh.addParameter id name lower upper).map Prod.snd)) := by
  simp only [addParameter, show w.fresh.model id = w.model id from rfl]
  generalize nameOr "u" (w.model id).parameters.length name = label
  cases checkBounds label lower upper with
  | error e => exact ⟨h, rfl⟩
  | ok b => exact parallel_withModel h (.of_uncertain rfl rfl rfl rfl)

theorem parallel_setObjective (h : w.Orderly) (id : ℕ) (sense : Literal α) (v : Operand α) :
    Parallel (Change.accept w (w.setObjectiveTo id sense v))
      (Change.accept w.fresh (w.fresh.setObjectiveTo id sense v)) := by
  unfold setObjectiveTo
  cases directionOf sense with
  | error e => exact ⟨h, rfl⟩
  | ok direction =>
    change Parallel (Change.accept w (objectiveFor direction v >>= _))
      (Change.accept w.fresh (objectiveFor direction v >>= _))
    cases objectiveFor direction v with
    | error e => exact ⟨h, rfl⟩
    | ok o => exact parallel_withModel h (.of_uncertain rfl rfl rfl rfl)

theorem parallel_assign (h : w.Orderly) (x : Decision α) (v : Option α) :
    Parallel (Change.accept w (w.assign x v)) (Change.accept w.fresh (w.fresh.assign x v)) := by
  unfold assign
  cases v.all (admits x) with
  | false => exact ⟨h, rfl⟩
  | true => exact ⟨h.congr rfl rfl, rfl⟩

/-- A change of a workspace in order is the same change of its fresh sets. -/
theorem parallel_apply (h : w.Orderly) (c : Change α) :
    Parallel (c.apply w) (c.apply w.fresh) := by
  cases c with
  | set s hs => exact parallel_addSet h hs
  | model given => exact parallel_addModel h given
  | decision id name lower upper integer =>
    exact parallel_addDecision h id name lower upper integer
  | parameter id name lower upper => exact parallel_addParameter h id name lower upper
  | constraint id given c => exact parallel_addConstraint h id given c
  | setConstraint id c => exact parallel_addToSet h id c
  | objective id sense v => exact parallel_setObjective h id sense v
  | value x v => exact parallel_assign h x v

/-! ## Histories -/

/-- A workspace after changes and solves, in any order and of any models, also solves that failed.
The sets beside it are those that the same changes lead to without the solves. -/
inductive History : Workspace α → List (UncertaintySet α) → Prop
  | empty : History empty []
  | change {w : Workspace α} {sets : List (UncertaintySet α)} (h : History w sets) (c : Change α) :
      History (c.apply w) (c.apply (w.withSets sets)).sets
  | solve {w : Workspace α} {sets : List (UncertaintySet α)} (h : History w sets) (id : ℕ)
      (a : Attempt α) : History (w.attempt id a).2 sets

theorem History.changes {w : Workspace α} {sets : List (UncertaintySet α)} (h : History w sets)
    (cs : List (Change α)) : ∃ sets', History (Change.applyAll w cs) sets' := by
  induction cs generalizing w sets with
  | nil => exact ⟨sets, h⟩
  | cons c cs ih => exact ih (h.change c)

theorem orderly_attempt (h : w.Orderly) (id : ℕ) (a : Attempt α) :
    (w.attempt id a).2.Orderly := by
  have hmodels := w.models_runModel id a.settings a.prefs a.env
  have hnotes := notes_runModel (h.named id) h.notes a.settings a.prefs a.env
  unfold attempt solve
  generalize w.runModel id a.settings a.prefs a.env = q at hmodels hnotes ⊢
  obtain ⟨answer, g⟩ := q
  have hmodel : g.world.space.model = w.model := funext fun id => by
    rw [model, show g.world.space.models = w.models from hmodels, ← model]
  have horderly : g.world.space.Orderly := ⟨hmodel ▸ h.named, hmodel ▸ hnotes⟩
  cases answer with
  | error e => exact horderly
  | ok r => exact horderly.withModel (.of_uncertain rfl rfl rfl rfl)

theorem core_attempt (w : Workspace α) (id : ℕ) (a : Attempt α) :
    (w.attempt id a).2.sets.map UncertaintySet.core = w.sets.map UncertaintySet.core := by
  have hcore := w.core_runModel id a.settings a.prefs a.env
  unfold attempt solve
  generalize w.runModel id a.settings a.prefs a.env = q at hcore ⊢
  rcases q with ⟨_ | _, _⟩ <;> exact hcore

variable {sets : List (UncertaintySet α)}

/-- What sets have noted between solves, and what solves leave of sets. -/
theorem History.orderly (h : History w sets) :
    w.Orderly ∧ sets = w.sets.map UncertaintySet.core := by
  induction h with
  | empty => exact ⟨orderly_empty, rfl⟩
  | @change w sets _ c ih =>
    obtain ⟨horderly, rfl⟩ := ih
    obtain ⟨hchanged, hfresh⟩ := parallel_apply horderly c
    exact ⟨hchanged, congrArg Workspace.sets hfresh⟩
  | @solve w sets _ id a ih =>
    obtain ⟨horderly, rfl⟩ := ih
    exact ⟨orderly_attempt horderly id a, (core_attempt w id a).symm⟩

/-! ## The next solve -/

/-- The phases of a solve up to the setup. The answer is the registrations. -/
def enrollment (w : Workspace α) (id : ℕ) (a : Attempt α) :
    Action (Session α) (Fault α) (Registry ℕ ℕ) := do
  let p := w.participants (w.model id) a.settings.reportScenarios.isTrue a.prefs a.env
  let r ← p.registerAll
  p.setupAll r
  return r

/-- What a solve does before it solves its master goes on with the reformulations. -/
theorem opening_eq (w : Workspace α) (id : ℕ) (a : Attempt α) :
    let p := w.participants (w.model id) a.settings.reportScenarios.isTrue a.prefs a.env
    w.opening id a = w.enrollment id a >>= fun r => p.start >>= fun _ => p.reformAll r := by
  simp only [opening, enrollment, bind_assoc, pure_bind]
  rfl

end Workspace

namespace UncertaintySet

variable [Scalar α] {s s' t : UncertaintySet α} {model : Model α} {prefs : Preferences α}

/-- Constraints of a model are registered to a set, and it is set up. -/
def enroll (model : Model α) (report : Bool) (prefs : Preferences α) (indices : List ℕ) :
    Action (UncertaintySet α) (Fault α) Unit := do
  indices.forM fun i => register model i prefs
  setup model report prefs

omit [Scalar α] in
/-- Constraints are registered one by one if each of them can be. -/
theorem yields_forM_register (hs : s.plane?.isSome = true) {is : List ℕ}
    (his : ∀ i ∈ is, ∃ hi : i < model.uncertain.length,
      (model.uncertain[i]).constraint.hasDecisions = true) :
    (is.forM fun i : ℕ => register model i prefs).Yields s ⟨⟩
      (registered model.id s (is.map Int.ofNat)) := by
  induction is generalizing s with
  | nil => rw [List.map_nil, registered_nil]; rfl
  | cons i is ih =>
    obtain ⟨⟨hi, hdec⟩, his⟩ := List.forall_mem_cons.mp his
    refine yields_bind.mpr ⟨⟨⟩, _, (yields_register hs hi).mpr ⟨hdec, rfl⟩, ?_⟩
    have := ih (s := registered model.id s [(i : Int)])
      ((isSome_plane?_registered _ _ _).trans hs) his
    rwa [← registered_append] at this

/-- Sets that were built and constrained alike, and noted the same, differ in what a setup takes
anew. -/
theorem renewed_eq_of_record (hs : s.plane?.isSome = true) (h : s'.record = s.record) :
    s'.renewed = s.renewed := by
  obtain ⟨hcore, hregistration⟩ := Prod.mk.inj h
  cases s with
  | bare | scripted => cases hs
  | polyhedral p d =>
    cases s' with
    | budget | bare | scripted => cases hcore
    | polyhedral q e =>
      obtain ⟨hmodel, hindices⟩ := Prod.mk.inj (Option.some.inj hregistration)
      have hdata := (UncertaintySet.polyhedral.inj hcore).2
      simp only [renewed, CuttingPlane.renewed, hmodel, hindices, hdata]
  | budget p b =>
    cases s' with
    | polyhedral | bare | scripted => cases hcore
    | budget q c =>
      obtain ⟨hmodel, hindices⟩ := Prod.mk.inj (Option.some.inj hregistration)
      have hdata := (UncertaintySet.budget.inj hcore).2
      simp only [renewed, CuttingPlane.renewed, hmodel, hindices, hdata]

end UncertaintySet

namespace Workspace

variable [Scalar α] {w : Workspace α} {sets : List (UncertaintySet α)} {id k : ℕ}

/-- After all registrations of a solve a set has noted the constraints it owns. -/
theorem Orderly.registration_setAfter (h : w.Orderly)
    (hplane : (w.uncertaintySet k).plane?.isSome = true) {i : ℕ}
    (hi : i < (w.model id).uncertain.length) (hown : (w.model id).setFor i = k) :
    (Session.setAfter w (w.model id) (w.model id).uncertain.length k).registration
      = some (some id, (w.model id).ownedBelow k (w.model id).uncertain.length) := by
  have hall := (h.notes k).registration_registered (m := id) hplane hi hown
  rwa [Session.setAfter, h.named id]

/-- So it differs from one without earlier solves in what the setup takes anew. -/
theorem Orderly.renewed_setAfter (h : w.Orderly)
    (hplane : (w.uncertaintySet k).plane?.isSome = true) {i : ℕ}
    (hi : i < (w.model id).uncertain.length) (hown : (w.model id).setFor i = k) :
    (Session.setAfter w.fresh (w.model id) (w.model id).uncertain.length k).renewed
      = (Session.setAfter w (w.model id) (w.model id).uncertain.length k).renewed := by
  have hplane₀ : (w.fresh.uncertaintySet k).plane?.isSome = true := by
    rw [uncertaintySet_fresh, UncertaintySet.isSome_plane?_core, hplane]
  refine UncertaintySet.renewed_eq_of_record (Session.isSome_plane?_setAfter.trans hplane)
    (Prod.ext ?_ ?_)
  · simp only [UncertaintySet.record, Session.setAfter, UncertaintySet.core_registered,
      uncertaintySet_fresh, UncertaintySet.core_core]
  · exact (h.fresh.registration_setAfter hplane₀ hi hown).trans
      (h.registration_setAfter hplane hi hown).symm

/-- **Sets are as good as new.** After changes and solves, failed ones included, a further solve
that gets through its setup leaves every set with the constraints that are registered to it in this
solve, and equal to a set that was built and constrained alike, and was registered and set up for
this model alone. -/
theorem History.enrollment_fresh (h : History w sets) {a : Attempt α} {r : Registry ℕ ℕ}
    {t : Session α} (hy : (w.enrollment id a).Yields ⟨w, none⟩ r t) :
    ∀ k ∈ r.owners, (w.uncertaintySet k).plane?.isSome = true →
      (∃ p, (t.space.uncertaintySet k).plane? = some p ∧ p.model = some id
        ∧ p.indices = (r.indices k).map Int.ofNat)
      ∧ (UncertaintySet.enroll (w.model id) a.settings.reportScenarios.isTrue a.prefs
          (r.indices k)).Yields ((w.withSets sets).uncertaintySet k) ⟨⟩
            (t.space.uncertaintySet k) := by
  obtain ⟨horderly, rfl⟩ := h.orderly
  intro k hk hplane
  obtain ⟨r', s, hreg, hy⟩ := yields_bind.mp hy
  obtain ⟨⟨⟩, t', hset, hy⟩ := yields_bind.mp hy
  obtain ⟨rfl, rfl⟩ := yields_pure.mp hy
  obtain ⟨rfl, hregistered, hdec⟩ := Session.registered_of_yields hreg
  obtain ⟨i, hi, hown⟩ := Registry.mem_owners_ofOwner.mp hk
  have hsetup := (Session.setUp_of_setupAll hregistered hset).after k hplane hk
  rw [Registry.indices_ofOwner]
  constructor
  · have hrecord := UncertaintySet.record_setup (w.model id) a.settings.reportScenarios.isTrue
      a.prefs (Session.setAfter w (w.model id) (w.model id).uncertain.length k)
    rw [show Action.perform _ _ = _ from hsetup] at hrecord
    obtain ⟨p, hp, heq⟩ := Option.map_eq_some_iff.mp
      ((congrArg Prod.snd hrecord).trans (horderly.registration_setAfter hplane hi hown))
    exact ⟨p, hp, (Prod.mk.inj heq).1, (Prod.mk.inj heq).2⟩
  · have hplane₀ : (w.fresh.uncertaintySet k).plane?.isSome = true := by
      rw [uncertaintySet_fresh, UncertaintySet.isSome_plane?_core, hplane]
    refine yields_bind.mpr ⟨⟨⟩, _, UncertaintySet.yields_forM_register hplane₀ ?_, ?_⟩
    · intro j hj
      obtain ⟨hj, hjown⟩ := List.mem_filter.mp hj
      have hjown : (w.model id).setFor j = k := by simpa using hjown
      exact ⟨List.mem_range.mp hj, hdec j (List.mem_range.mp hj) (hjown ▸ hplane)⟩
    · obtain ⟨_, hsetup₀, rfl, -⟩ := (UncertaintySet.alike_setup
        (Session.isSome_plane?_setAfter.trans hplane) (horderly.renewed_setAfter hplane hi hown)
        a.settings.reportScenarios.isTrue).exists_yields hsetup
      exact hsetup₀

/-- A further solve answers as it would with sets that took part in no solve before. -/
theorem History.attempt_eq (h : History w sets) (hw : w.Regular (w.model id)) (a : Attempt α) :
    (w.attempt id a).1 = ((w.withSets sets).attempt id a).1 := by
  obtain ⟨horderly, rfl⟩ := h.orderly
  have hagain : Again (w.model id) 0 0 w.fresh w := by
    refine ⟨rfl, fun j hj => ?_⟩
    obtain ⟨i, hi, hown⟩ := hj
    exact (horderly.renewed_setAfter (hw.plane j ⟨i, hi, hown⟩) hi hown).symm
  have hfresh : w.fresh.Regular (w.model id) := by
    refine ⟨fun j hj => ?_, hw.serial⟩
    rw [uncertaintySet_fresh, UncertaintySet.isSome_plane?_core]
    exact hw.plane j hj
  rw [attempt_fst, attempt_fst]
  exact (alike_run hfresh hagain a fun _ _ _ _ => .inr rfl).answer_eq.symm

end Workspace

/-! ## A shared set

Two models share a set. A solve of the first one fails at its master, after the set was set up; then
the second one is solved, and the first one gets a further constraint. -/

namespace Rota

def amount (model : ℕ) : Decision Extended :=
  ⟨model, 0, "x", .negInf, .posInf, ⟨model, none, .decision 0, false, false⟩⟩

def rate (model : ℕ) : Parameter Extended := ⟨model, 0, .text "u", .finite 1, .finite 2⟩

/-- The amount at the rate is at most a bound. -/
def limit (model tag : ℕ) (bound : ℚ) : Change Extended :=
  .constraint model none (.uncertainConstraint
    ⟨tag, ⟨⟨[(amount model, ⟨[(rate model, 1)], 0⟩)], ⟨[], 0⟩⟩, .negInf, .finite bound⟩⟩)

/-- A model with one constraint. -/
def plan (model : ℕ) : List (Change Extended) := [
  .model (some 0),
  .decision model (.text "x") .absent .absent false,
  .parameter model (.text "u") (.real (.finite 1)) (.real (.finite 2)),
  limit model model 3]

def plans : List (Change Extended) := .set .newPolyhedral .polyhedral :: plan 0 ++ plan 1

/-- A solve whose master fails. -/
def broken : Attempt Extended :=
  ⟨.defaults, [], ⟨fun _ => .error .badValue, .builtin, fun _ offered => offered⟩⟩

/-- The workspace before the further constraint. -/
def solved : Workspace Extended :=
  (((Change.applyAll .empty plans).attempt 0 broken).2.attempt 1 (.preferring true)).2

def workspace : Workspace Extended := (limit 0 2 5).apply solved

theorem exists_history : ∃ sets, Workspace.History workspace sets := by
  obtain ⟨_, h⟩ := Workspace.History.empty.changes plans
  exact ⟨_, ((h.solve 0 broken).solve 1 (.preferring true)).change (limit 0 2 5)⟩

set_option maxRecDepth 100000 in
/-- The set keeps the second model until the first one is solved again. -/
theorem entries_enrollment :
    (solved.uncertaintySet 0).registration = some (some 1, [0])
      ∧ ((workspace.enrollment 0 broken).perform ⟨workspace, none⟩).1.toOption.map
        Registry.entries = some [(0, 0), (1, 0)] := by
  decide +kernel

/-- The set has both constraints of the first model after its setup, and is as good as new. -/
theorem shared_enrollment_fresh : ∃ sets r t, Workspace.History workspace sets
    ∧ (workspace.enrollment 0 broken).Yields ⟨workspace, none⟩ r t
    ∧ (∃ p, (t.space.uncertaintySet 0).plane? = some p ∧ p.model = some 0 ∧ p.indices = [0, 1])
    ∧ (UncertaintySet.enroll (workspace.model 0) false [] [0, 1]).Yields
      ((workspace.withSets sets).uncertaintySet 0) ⟨⟩ (t.space.uncertaintySet 0) := by
  obtain ⟨sets, h⟩ := exists_history
  have hentries := entries_enrollment.2
  rcases hy : (workspace.enrollment 0 broken).perform ⟨workspace, none⟩ with ⟨_ | r, t⟩
  · rw [hy] at hentries
    cases hentries
  · rw [hy] at hentries
    obtain rfl : r = ⟨[(0, 0), (1, 0)]⟩ := congrArg Registry.mk (Option.some.inj hentries)
    obtain ⟨hnoted, hequal⟩ := h.enrollment_fresh hy 0 (by decide) (by decide +kernel)
    exact ⟨sets, _, t, h, hy, hnoted, hequal⟩

end Rota

end RobustOpt
