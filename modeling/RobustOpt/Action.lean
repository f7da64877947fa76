/-!
# Actions

A step of a stateful computation that may fail. The state survives a failure: what was done
before the failing step stays done.

## Main definitions

* `Action`: a state transformer that answers a value or a fault, and the new state either way.
* `Action.onState`: an action on a part of the state.
-/

namespace RobustOpt

/-- A computation on the state `σ` that answers a `β` or fails with an `ε`. -/
abbrev Action (σ ε β : Type) := ExceptT ε (StateM σ) β

namespace Action

variable {σ τ ε β : Type}

/-- The answer of an action and the state it leaves. -/
def perform (a : Action σ ε β) (s : σ) : Except ε β × σ := StateT.run (ExceptT.run a) s

/-- The action with a given meaning. -/
def ofFun (f : σ → Except ε β × σ) : Action σ ε β := ExceptT.mk (fun s => f s)

/-- Run an action on a part of a larger state. -/
def onState (a : Action τ ε β) (part : σ → τ) (put : τ → σ → σ) : Action σ ε β :=
  ofFun fun s =>
    let (answer, t) := a.perform (part s)
    (answer, put t s)

@[simp] theorem perform_ofFun (f : σ → Except ε β × σ) (s : σ) :
    (ofFun f).perform s = f s := rfl

@[simp] theorem perform_pure (b : β) (s : σ) :
    (pure b : Action σ ε β).perform s = (.ok b, s) := rfl

@[simp] theorem perform_throw (e : ε) (s : σ) :
    (throw e : Action σ ε β).perform s = (.error e, s) := rfl

theorem perform_bind {γ : Type} (a : Action σ ε β) (f : β → Action σ ε γ) (s : σ) :
    (a >>= f).perform s =
      match a.perform s with
      | (.ok b, t) => (f b).perform t
      | (.error e, t) => (.error e, t) := by
  show (ExceptT.bindCont f (a.perform s).1).run (a.perform s).2 = _
  rcases a.perform s with ⟨_ | _, _⟩ <;> rfl

theorem perform_map {γ : Type} (f : β → γ) (a : Action σ ε β) (s : σ) :
    (f <$> a).perform s = ((a.perform s).1.map f, (a.perform s).2) := by
  rw [map_eq_pure_bind, perform_bind]
  rcases a.perform s with ⟨_ | _, _⟩ <;> rfl

end Action

end RobustOpt
