import Mathlib.Data.List.Forall2
import RobustOpt.Action

/-!
# Successful computations

What follows when a computation succeeds: each of its steps did, in the state that the steps before
it left. Loops over lists are taken apart by invariants that speak about the items done so far.

## Main definitions

* `Action.Yields`: an action answers a value and leaves a state.

## Main statements

* `Action.yields_bind`: the steps of a successful action.
* `Action.Yields.forM`, `Action.Yields.mapM`, `Action.Yields.foldlM`: invariants of loops.
-/

namespace RobustOpt

variable {σ τ ε β γ : Type}

/-! ## Computations without state -/

theorem bind_eq_ok {x : Except ε β} {f : β → Except ε γ} {c : γ} :
    (x >>= f) = .ok c ↔ ∃ b, x = .ok b ∧ f b = .ok c := by
  cases x <;> simp [bind, Except.bind]

theorem bind_eq_error {x : Except ε β} {f : β → Except ε γ} {e : ε} :
    (x >>= f) = .error e ↔ x = .error e ∨ ∃ b, x = .ok b ∧ f b = .error e := by
  cases x <;> simp [bind, Except.bind]

theorem toOption_eq_some {x : Except ε β} {b : β} : x.toOption = some b ↔ x = .ok b := by
  cases x <;> simp [Except.toOption]

theorem map_eq_ok {x : Except ε β} {f : β → γ} {c : γ} :
    x.map f = .ok c ↔ ∃ b, x = .ok b ∧ f b = c := by
  cases x <;> simp [Except.map]

@[simp] theorem pure_eq_ok {b c : β} : (pure b : Except ε β) = .ok c ↔ b = c := by
  simp [pure, Except.pure]

@[simp] theorem throw_ne_ok {e : ε} {c : β} : (throw e : Except ε β) = .ok c ↔ False := by
  simp [throw, throwThe, MonadExceptOf.throw]

theorem mapM_eq_ok {f : β → Except ε γ} {l : List β} {r : List γ} :
    l.mapM f = .ok r ↔ List.Forall₂ (fun b c => f b = .ok c) l r := by
  induction l generalizing r with
  | nil => cases r <;> simp
  | cons b l ih =>
    rw [List.mapM_cons, bind_eq_ok]
    simp only [bind_eq_ok, pure_eq_ok, ih]
    constructor
    · rintro ⟨c, hc, cs, hcs, rfl⟩
      exact .cons hc hcs
    · rintro (_ | ⟨hc, hcs⟩)
      exact ⟨_, hc, _, hcs, rfl⟩

/-- What corresponds to an item of the first list. -/
theorem exists_of_mem_left {R : β → γ → Prop} {l : List β} {r : List γ} (h : List.Forall₂ R l r)
    {b : β} (hb : b ∈ l) : ∃ c ∈ r, R b c := by
  induction h with
  | nil => cases hb
  | cons hbc _ ih =>
    rcases List.mem_cons.mp hb with rfl | hb
    · exact ⟨_, by simp, hbc⟩
    · obtain ⟨c, hc, hR⟩ := ih hb
      exact ⟨c, by simp [hc], hR⟩

/-- What corresponds to an item of the second list. -/
theorem exists_of_mem_right {R : β → γ → Prop} {l : List β} {r : List γ} (h : List.Forall₂ R l r)
    {c : γ} (hc : c ∈ r) : ∃ b ∈ l, R b c :=
  exists_of_mem_left (List.Forall₂.flip (R := flip R) h) hc

theorem exists_of_mem_mapM {f : β → Except ε γ} {l : List β} {r : List γ} (h : l.mapM f = .ok r)
    {b : β} (hb : b ∈ l) : ∃ c ∈ r, f b = .ok c :=
  exists_of_mem_left (mapM_eq_ok.mp h) hb

theorem exists_of_mem_result {f : β → Except ε γ} {l : List β} {r : List γ} (h : l.mapM f = .ok r)
    {c : γ} (hc : c ∈ r) : ∃ b ∈ l, f b = .ok c :=
  exists_of_mem_right (mapM_eq_ok.mp h) hc

/-- Loops over steps that answer the same answer the same. -/
theorem mapM_congr {f g : β → Except ε γ} {l : List β} (h : ∀ b ∈ l, f b = g b) :
    l.mapM f = l.mapM g := by
  induction l with
  | nil => rfl
  | cons b l ih =>
    obtain ⟨hb, hl⟩ := List.forall_mem_cons.mp h
    rw [List.mapM_cons, List.mapM_cons, hb, ih hl]

/-- A loop succeeds if every step does. -/
theorem exists_mapM {f : β → Except ε γ} {R : β → γ → Prop} {l : List β}
    (h : ∀ b ∈ l, ∃ c, f b = .ok c ∧ R b c) : ∃ r, l.mapM f = .ok r ∧ List.Forall₂ R l r := by
  induction l with
  | nil => exact ⟨[], rfl, .nil⟩
  | cons b l ih =>
    obtain ⟨⟨c, hc, hbc⟩, hl⟩ := List.forall_mem_cons.mp h
    obtain ⟨r, hr, hrest⟩ := ih hl
    refine ⟨c :: r, ?_, .cons hbc hrest⟩
    rw [List.mapM_cons, bind_eq_ok]
    exact ⟨c, hc, bind_eq_ok.mpr ⟨r, hr, rfl⟩⟩

/-- A loop that fails does so at the first item that fails. -/
theorem exists_of_mapM_eq_error {f : β → Except ε γ} {l : List β} {e : ε}
    (h : l.mapM f = .error e) :
    ∃ (i : ℕ) (hi : i < l.length), f l[i] = .error e ∧ ∀ j, ∀ hj : j < i, ∃ r, f l[j] = .ok r := by
  induction l with
  | nil => cases h
  | cons b l ih =>
    rw [List.mapM_cons] at h
    rcases bind_eq_error.mp h with hb | ⟨r, hb, h⟩
    · exact ⟨0, by simp, hb, by simp⟩
    · rcases bind_eq_error.mp h with hl | ⟨rs, -, h⟩
      · obtain ⟨i, hi, he, hbefore⟩ := ih hl
        refine ⟨i + 1, by simpa using hi, he, fun j hj => ?_⟩
        cases j with
        | zero => exact ⟨r, hb⟩
        | succ j => exact hbefore j (by omega)
      · cases h

/-- What corresponds item by item holds throughout one list if it does throughout the other. -/
theorem forall_mem_iff_of_forall₂ {R : β → γ → Prop} {P : β → Prop} {Q : γ → Prop} {l : List β}
    {r : List γ} (h : List.Forall₂ R l r) (hR : ∀ b c, R b c → (P b ↔ Q c)) :
    (∀ b ∈ l, P b) ↔ ∀ c ∈ r, Q c := by
  induction h with
  | nil => simp
  | cons hbc _ ih => rw [List.forall_mem_cons, List.forall_mem_cons, hR _ _ hbc, ih]

/-- A loop of computations that are functions with a precondition. -/
theorem mapM_eq_ok_map {f : β → Except ε γ} {P : β → Prop} {g : β → γ}
    (h : ∀ b c, f b = .ok c ↔ P b ∧ c = g b) {l : List β} {r : List γ} :
    l.mapM f = .ok r ↔ (∀ b ∈ l, P b) ∧ r = l.map g := by
  induction l generalizing r with
  | nil => rw [List.mapM_nil, pure_eq_ok]; simp [eq_comm]
  | cons b l ih =>
    rw [List.mapM_cons, bind_eq_ok]
    simp only [bind_eq_ok, pure_eq_ok, ih, h]
    constructor
    · rintro ⟨c, ⟨hb, rfl⟩, cs, ⟨hl, rfl⟩, rfl⟩
      exact ⟨by simpa using ⟨hb, hl⟩, rfl⟩
    · rintro ⟨hl, rfl⟩
      obtain ⟨hb, hl⟩ := List.forall_mem_cons.mp hl
      exact ⟨_, ⟨hb, rfl⟩, _, ⟨hl, rfl⟩, rfl⟩

namespace Action

theorem perform_get_bind (f : σ → Action σ ε β) (s : σ) :
    (get >>= f).perform s = (f s).perform s := by
  rw [perform_bind]
  rfl

theorem perform_lift_bind (e : Except ε β) (f : β → Action σ ε γ) (s : σ) :
    (liftM e >>= f).perform s = match e with
      | .ok b => (f b).perform s
      | .error e => (.error e, s) := by
  rw [perform_bind]
  cases e <;> rfl

/-- The action answers `b` and leaves the state `t`. -/
def Yields (a : Action σ ε β) (s : σ) (b : β) (t : σ) : Prop := a.perform s = (.ok b, t)

variable {s t : σ} {b : β} {c : γ}

@[simp] theorem yields_pure {d : β} : (pure b : Action σ ε β).Yields s d t ↔ b = d ∧ s = t := by
  simp [Yields]

@[simp] theorem yields_throw {e : ε} : ¬ (throw e : Action σ ε β).Yields s b t := by
  simp [Yields]

@[simp] theorem yields_get {u : σ} : (get : Action σ ε σ).Yields s u t ↔ s = u ∧ s = t := by
  show ((.ok s, s) : Except ε σ × σ) = (.ok u, t) ↔ _
  simp

@[simp] theorem yields_set {u : σ} {r : PUnit} :
    (set u : Action σ ε PUnit).Yields s r t ↔ u = t := by
  show ((.ok PUnit.unit, u) : Except ε PUnit × σ) = (.ok r, t) ↔ _
  simp

@[simp] theorem yields_modify {f : σ → σ} {r : PUnit} :
    (modify f : Action σ ε PUnit).Yields s r t ↔ f s = t := by
  show ((.ok PUnit.unit, f s) : Except ε PUnit × σ) = (.ok r, t) ↔ _
  simp

@[simp] theorem yields_ofFun {f : σ → Except ε β × σ} :
    (ofFun f).Yields s b t ↔ f s = (.ok b, t) := Iff.rfl

/-- A computation without state leaves the state as it is. -/
@[simp] theorem yields_lift {e : Except ε β} :
    (liftM e : Action σ ε β).Yields s b t ↔ e = .ok b ∧ s = t := by
  show ((e, s) : Except ε β × σ) = (.ok b, t) ↔ _
  simp

theorem yields_bind {a : Action σ ε β} {f : β → Action σ ε γ} {u : σ} :
    (a >>= f).Yields s c u ↔ ∃ b t, a.Yields s b t ∧ (f b).Yields t c u := by
  simp only [Yields, perform_bind]
  rcases a.perform s with ⟨_ | _, _⟩ <;> simp

@[simp] theorem yields_get_bind {f : σ → Action σ ε γ} :
    (get >>= f).Yields s c t ↔ (f s).Yields s c t := by
  simp [yields_bind]

@[simp] theorem yields_set_bind {u : σ} {f : PUnit → Action σ ε γ} :
    (set u >>= f).Yields s c t ↔ (f ⟨⟩).Yields u c t := by
  simp only [yields_bind, yields_set]
  constructor
  · rintro ⟨⟨⟩, _, rfl, h⟩
    exact h
  · intro h
    exact ⟨⟨⟩, u, rfl, h⟩

@[simp] theorem yields_modify_bind {g : σ → σ} {f : PUnit → Action σ ε γ} :
    (modify g >>= f).Yields s c t ↔ (f ⟨⟩).Yields (g s) c t := by
  simp only [yields_bind, yields_modify]
  constructor
  · rintro ⟨⟨⟩, _, rfl, h⟩
    exact h
  · intro h
    exact ⟨⟨⟩, g s, rfl, h⟩

@[simp] theorem yields_lift_bind {e : Except ε β} {f : β → Action σ ε γ} :
    (liftM e >>= f).Yields s c t ↔ ∃ b, e = .ok b ∧ (f b).Yields s c t := by
  simp [yields_bind]

@[simp] theorem yields_map {a : Action σ ε β} {f : β → γ} :
    (f <$> a).Yields s c t ↔ ∃ b, a.Yields s b t ∧ f b = c := by
  rw [map_eq_pure_bind, yields_bind]
  simp

theorem yields_onState {a : Action τ ε β} {part : σ → τ} {put : τ → σ → σ} :
    (a.onState part put).Yields s b t ↔ ∃ u, a.Yields (part s) b u ∧ put u s = t := by
  rw [onState, yields_ofFun]
  constructor
  · intro h
    obtain ⟨hb, ht⟩ := Prod.mk.inj h
    exact ⟨(a.perform (part s)).2, Prod.ext hb rfl, ht⟩
  · rintro ⟨u, hu, rfl⟩
    rw [Yields] at hu
    rw [hu]

/-- An action yields one answer and one state. -/
theorem Yields.unique {a : Action σ ε β} {b' : β} {t' : σ} (h : a.Yields s b t)
    (h' : a.Yields s b' t') : b = b' ∧ t = t' := by
  have := h.symm.trans h'
  simpa using this

/-! ## Loops -/

/-- An invariant of a loop that collects the answers. It speaks about the items done, their answers
and the state. -/
theorem Yields.mapM {f : β → Action σ ε γ} {l : List β} {r : List γ}
    (P : List β → List γ → σ → Prop) (h : (l.mapM f).Yields s r t) (start : P [] [] s)
    (step : ∀ done out x s c t, done ++ [x] <+: l → P done out s → (f x).Yields s c t →
      P (done ++ [x]) (out ++ [c]) t) : P l r t := by
  suffices hgen : ∀ todo done out s r, l = done ++ todo → P done out s →
      (todo.mapM f).Yields s r t → P l (out ++ r) t from
    hgen l [] [] s r rfl start h
  intro todo
  induction todo with
  | nil =>
    intro done out s r hl hP hy
    simp only [List.mapM_nil, yields_pure] at hy
    obtain ⟨rfl, rfl⟩ := hy
    simpa [hl] using hP
  | cons x todo ih =>
    intro done out s r hl hP hy
    rw [List.mapM_cons, yields_bind] at hy
    obtain ⟨c, s', hx, hy⟩ := hy
    rw [yields_bind] at hy
    obtain ⟨cs, t', hrest, hy⟩ := hy
    obtain ⟨rfl, rfl⟩ := yields_pure.mp hy
    have hl' : l = (done ++ [x]) ++ todo := by simp [hl]
    have := ih (done ++ [x]) (out ++ [c]) s' cs hl'
      (step done out x s c s' ⟨todo, hl'.symm⟩ hP hx) hrest
    simpa using this

/-- An invariant of a loop that carries a value along. -/
theorem Yields.foldlM {f : γ → β → Action σ ε γ} {l : List β} {r : γ}
    (P : List β → γ → σ → Prop) (h : (l.foldlM f c).Yields s r t) (start : P [] c s)
    (step : ∀ done c x s d t, done ++ [x] <+: l → P done c s → (f c x).Yields s d t →
      P (done ++ [x]) d t) : P l r t := by
  suffices hgen : ∀ todo done c s, l = done ++ todo → P done c s →
      (todo.foldlM f c).Yields s r t → P l r t from
    hgen l [] c s rfl start h
  intro todo
  induction todo with
  | nil =>
    intro done c s hl hP hy
    simp only [List.foldlM_nil, yields_pure] at hy
    obtain ⟨rfl, rfl⟩ := hy
    simpa [hl] using hP
  | cons x todo ih =>
    intro done c s hl hP hy
    rw [List.foldlM_cons, yields_bind] at hy
    obtain ⟨d, s', hx, hrest⟩ := hy
    have hl' : l = (done ++ [x]) ++ todo := by simp [hl]
    exact ih (done ++ [x]) d s' hl' (step done c x s d s' ⟨todo, hl'.symm⟩ hP hx) hrest

/-- An invariant of a loop without answers. -/
theorem Yields.forM {f : β → Action σ ε PUnit} {l : List β} {r : PUnit}
    (P : List β → σ → Prop) (h : (l.forM f).Yields s r t) (start : P [] s)
    (step : ∀ done x s t, done ++ [x] <+: l → P done s → (f x).Yields s ⟨⟩ t →
      P (done ++ [x]) t) : P l t := by
  suffices hgen : ∀ todo done s, l = done ++ todo → P done s →
      (todo.forM f).Yields s r t → P l t from
    hgen l [] s rfl start h
  intro todo
  induction todo with
  | nil =>
    intro done s hl hP hy
    obtain ⟨-, rfl⟩ := yields_pure.mp hy
    simpa [hl] using hP
  | cons x todo ih =>
    intro done s hl hP hy
    obtain ⟨⟨⟩, s', hx, hrest⟩ := yields_bind.mp hy
    have hl' : l = (done ++ [x]) ++ todo := by simp [hl]
    exact ih (done ++ [x]) s' hl' (step done x s s' ⟨todo, hl'.symm⟩ hP hx) hrest

/-- A loop without answers succeeds if its invariant lets every step succeed. -/
theorem exists_yields_forM {f : β → Action σ ε PUnit} {l : List β} (P : List β → σ → Prop)
    (start : P [] s)
    (step : ∀ done x s, done ++ [x] <+: l → P done s →
      ∃ t, (f x).Yields s ⟨⟩ t ∧ P (done ++ [x]) t) :
    ∃ t, (l.forM f).Yields s ⟨⟩ t ∧ P l t := by
  suffices hgen : ∀ todo done s, l = done ++ todo → P done s →
      ∃ t, (todo.forM f).Yields s ⟨⟩ t ∧ P l t from hgen l [] s rfl start
  intro todo
  induction todo with
  | nil =>
    intro done s hl hP
    exact ⟨s, yields_pure.mpr ⟨rfl, rfl⟩, by simpa [hl] using hP⟩
  | cons x todo ih =>
    intro done s hl hP
    have hl' : l = (done ++ [x]) ++ todo := by simp [hl]
    obtain ⟨s', hx, hP'⟩ := step done x s ⟨todo, hl'.symm⟩ hP
    obtain ⟨t, ht, hPt⟩ := ih (done ++ [x]) s' hl' hP'
    exact ⟨t, yields_bind.mpr ⟨⟨⟩, s', hx, ht⟩, hPt⟩

/-- A loop that collects answers succeeds if its invariant lets every step succeed. -/
theorem exists_yields_mapM {f : β → Action σ ε γ} {l : List β} (P : List β → List γ → σ → Prop)
    (start : P [] [] s)
    (step : ∀ done out x s, done ++ [x] <+: l → P done out s →
      ∃ c t, (f x).Yields s c t ∧ P (done ++ [x]) (out ++ [c]) t) :
    ∃ r t, (l.mapM f).Yields s r t ∧ P l r t := by
  suffices hgen : ∀ todo done out s, l = done ++ todo → P done out s →
      ∃ r t, (todo.mapM f).Yields s r t ∧ P l (out ++ r) t from hgen l [] [] s rfl start
  intro todo
  induction todo with
  | nil =>
    intro done out s hl hP
    exact ⟨[], s, by simp [List.mapM_nil], by simpa [hl] using hP⟩
  | cons x todo ih =>
    intro done out s hl hP
    have hl' : l = (done ++ [x]) ++ todo := by simp [hl]
    obtain ⟨c, s', hx, hP'⟩ := step done out x s ⟨todo, hl'.symm⟩ hP
    obtain ⟨r, t, ht, hPt⟩ := ih (done ++ [x]) (out ++ [c]) s' hl' hP'
    refine ⟨c :: r, t, ?_, by simpa using hPt⟩
    rw [List.mapM_cons]
    exact yields_bind.mpr ⟨c, s', hx, yields_bind.mpr ⟨r, t, ht, yields_pure.mpr ⟨rfl, rfl⟩⟩⟩

end Action

end RobustOpt
