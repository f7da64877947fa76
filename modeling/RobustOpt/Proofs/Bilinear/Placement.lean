import RobustOpt.Proofs.Bilinear.Representation

/-!
# Symbols without a row or a column

The parameters of an expression are looked up in an accumulator that has a slot for each of `n`, its
decision variables in a matrix that has a column more than the `m` variables. Hence a parameter
without a row is always noticed, and so is a decision variable from the index `m + 1` on. The index
`m` is that of the column of the constant, and the terms of a variable that has it end up there.

## Main definitions

* `Action.FailsWith`: an action has one fault only.
* `Mixed.Contributes`: every symbol of an expression contributes an entry.
* `Uncertain.share`: what a coefficient expression has in a row of its column.

## Main statements

* `Mixed.index_lt_of_yields_matrixEntries`: parameters have to have a row.
* `Mixed.Contributes.all_entries_iff`: decision variables have to have a column.
* `Mixed.coefficientMatrix_placed`: when an expression has a matrix, and what is in it.
-/

namespace RobustOpt

variable {σ ε β γ : Type}

/-! ## Faults -/

namespace Action

/-- Whenever the action fails, it does so with the fault `c`. -/
def FailsWith (c : ε) (a : Action σ ε β) : Prop := ∀ s e, (a.perform s).1 = .error e → e = c

variable {c : ε}

theorem failsWith_pure (b : β) : (pure b : Action σ ε β).FailsWith c := fun _ _ h => nomatch h

theorem failsWith_modify (f : σ → σ) : (modify f : Action σ ε PUnit).FailsWith c :=
  fun _ _ h => nomatch h

theorem FailsWith.bind {a : Action σ ε β} {f : β → Action σ ε γ} (ha : a.FailsWith c)
    (hf : ∀ b, (f b).FailsWith c) : (a >>= f).FailsWith c := by
  intro s e h
  rw [perform_bind] at h
  rcases hp : a.perform s with ⟨d | b, t⟩
  · rw [hp] at h
    exact ha s e (by rw [hp, Except.error.inj h])
  · rw [hp] at h
    exact hf b t e h

theorem FailsWith.get_bind {f : σ → Action σ ε β} (hf : ∀ s, (f s).FailsWith c) :
    (get >>= f).FailsWith c :=
  FailsWith.bind (fun _ _ h => nomatch h) hf

theorem FailsWith.forM {f : β → Action σ ε PUnit} (h : ∀ b, (f b).FailsWith c) (l : List β) :
    (l.forM f).FailsWith c := by
  induction l with
  | nil => exact failsWith_pure _
  | cons b l ih => exact (h b).bind fun _ => ih

theorem FailsWith.mapM {f : β → Action σ ε γ} (h : ∀ b, (f b).FailsWith c) (l : List β) :
    (l.mapM f).FailsWith c := by
  induction l with
  | nil => exact failsWith_pure _
  | cons b l ih =>
    rw [List.mapM_cons]
    exact (h b).bind fun _ => ih.bind fun _ => failsWith_pure _

end Action

/-! ## Slots -/

namespace Accumulator

variable {acc acc' : Accumulator Extended} {i : ℤ} {x : Extended}

theorem failsWith_add (i : ℤ) (x : Extended) :
    (add i (.real x)).FailsWith (.indexOutOfRange : Fault Extended) := by
  intro acc e h
  rw [perform_add] at h
  split_ifs at h
  cases hk : acc.slot? i with
  | none =>
    rw [hk] at h
    exact (Except.error.inj h).symm
  | some k =>
    rw [hk] at h
    dsimp only at h
    split_ifs at h
    · exact (Except.error.inj h).symm
    · cases h

/-- An addition that is not refused keeps the slots, and names one of them or adds zero. -/
theorem size_of_yields_add (h : (add i (.real x)).Yields acc ⟨⟩ acc') :
    acc'.size = acc.size ∧ (x = 0 ∨ ∃ k, Position.find? acc.size i = some k) := by
  rw [Action.Yields, perform_add] at h
  split_ifs at h with h0
  · rw [isZero_real] at h0
    obtain ⟨-, rfl⟩ := Prod.mk.inj h
    exact ⟨rfl, .inl (Extended.isZero_iff.mp h0)⟩
  · cases hk : acc.slot? i with
    | none =>
      rw [hk] at h
      cases h
    | some k =>
      rw [hk] at h
      dsimp only at h
      split_ifs at h with hfull
      · cases h
      · obtain rfl : _ = acc' := (Prod.mk.inj h).2
        exact ⟨by simp [size], .inr ⟨k, hk⟩⟩

end Accumulator

/-! ## Rows and columns of an expression -/

namespace Uncertain

variable {f : Uncertain Extended} {n : ℕ}

/-- What the coefficient expression has in a row of its column: the collected coefficient of a
parameter, or its constant in the last row. -/
def share (f : Uncertain Extended) (n i : ℕ) : ℚ := if i = n then f.constant.rat else f.collected i

theorem failsWith_collectIn (f : Uncertain Extended) : f.collectIn.FailsWith .indexOutOfRange := by
  unfold collectIn
  split_ifs
  · exact Action.failsWith_pure _
  · refine (Action.failsWith_modify _).bind fun _ => Action.FailsWith.bind ?_ fun _ =>
      Action.FailsWith.get_bind fun _ => (Action.failsWith_modify _).bind fun _ =>
        Action.failsWith_pure _
    exact Action.FailsWith.forM (fun _ => Accumulator.failsWith_add _ _) _

/-- Terms can only be collected if the parameters that contribute have a slot. -/
theorem index_lt_of_yields_collectIn {r : List (ℕ × Extended)} {acc : Accumulator Extended}
    (h : f.collectIn.Yields (.empty n) r acc) : ∀ t ∈ f.terms, t.2 ≠ 0 → t.1.index < n := by
  unfold collectIn at h
  split_ifs at h with hnil
  · simp [List.isEmpty_iff.mp hnil]
  · rw [Action.yields_modify_bind, Action.yields_bind] at h
    obtain ⟨⟨⟩, acc', hloop, -⟩ := h
    -- each addition that went through kept the `n` slots and found one of them, or added zero
    refine (hloop.forM (fun done acc => acc.size = n ∧ ∀ t ∈ done, t.2 ≠ 0 → t.1.index < n)
      ⟨Accumulator.size_empty n, by simp⟩ ?_).2
    rintro done t s s' - ⟨hsize, hdone⟩ hy
    obtain ⟨hkeep, hslot⟩ := Accumulator.size_of_yields_add hy
    refine ⟨hkeep.trans hsize, List.forall_mem_append.mpr ⟨hdone, ?_⟩⟩
    refine List.forall_mem_singleton.mpr fun hne => ?_
    obtain ⟨k, hk⟩ := hslot.resolve_left hne
    rw [hsize] at hk
    have := Position.lt_of_find? hk
    unfold Position.find? at hk
    grind

end Uncertain

namespace Mixed

variable {e : Mixed Extended} {n m : ℕ}

/-- The coefficient expressions of the decision variables, and the part without any. -/
def parts (e : Mixed Extended) : List (Uncertain Extended) := e.terms.map Prod.snd ++ [e.constant]

/-- Every symbol of the expression contributes an entry: no stored coefficient of a parameter is
negligible, no parameter cancels out, and no decision variable has the coefficient zero. -/
structure Contributes (e : Mixed Extended) : Prop where
  weighty : ∀ f ∈ e.parts, ∀ t ∈ f.terms, Scalar.negligible t.2 = false
  uncancelled : ∀ f ∈ e.parts, ∀ t ∈ f.terms, t.1.index ∈ f.collect.map Prod.fst
  nonzero : ∀ t ∈ e.terms, t.2.terms ≠ [] ∨ t.2.constant ≠ 0

theorem forall_coefficients {P : Uncertain Extended → Prop} :
    (∀ p ∈ e.coefficients m, P p.2) ↔ ∀ f ∈ e.parts, P f := by
  simp only [coefficients, parts, List.forall_mem_append, List.forall_mem_map,
    List.forall_mem_singleton]

theorem failsWith_columnEntries (column : ℕ) (f : Uncertain Extended) :
    (columnEntries n column f).FailsWith .indexOutOfRange :=
  f.failsWith_collectIn.bind fun _ => Action.failsWith_pure _

theorem failsWith_matrixEntries (e : Mixed Extended) (n m : ℕ) :
    (e.matrixEntries n m).FailsWith .indexOutOfRange :=
  (Action.FailsWith.mapM (fun _ => failsWith_columnEntries _ _) _).bind fun _ =>
    (failsWith_columnEntries _ _).bind fun _ => Action.failsWith_pure _

/-- The entries of a column are given only if the parameters that contribute have a row. -/
theorem index_lt_of_yields_columnEntries {f : Uncertain Extended} {column : ℕ}
    {r : List (ℕ × ℕ × Extended)} {acc : Accumulator Extended}
    (hne : ∀ t ∈ f.terms, t.2 ≠ 0) (h : (columnEntries n column f).Yields (.empty n) r acc) :
    (∀ t ∈ f.terms, t.1.index < n) ∧ acc = .empty n := by
  obtain ⟨_, _, hcollect, -⟩ := Action.yields_bind.mp h
  have hlt : ∀ t ∈ f.terms, t.1.index < n := fun t ht =>
    Uncertain.index_lt_of_yields_collectIn hcollect t ht (hne t ht)
  exact ⟨hlt, (h.unique (yields_columnEntries hlt column)).2⟩

/-- So are the entries of the matrix. -/
theorem index_lt_of_yields_matrixEntries {r : List (ℕ × ℕ × Extended)}
    {acc : Accumulator Extended} (hne : ∀ f ∈ e.parts, ∀ t ∈ f.terms, t.2 ≠ 0)
    (h : (e.matrixEntries n m).Yields (.empty n) r acc) :
    ∀ f ∈ e.parts, ∀ t ∈ f.terms, t.1.index < n := by
  obtain ⟨_, s, hterms, h⟩ := Action.yields_bind.mp h
  obtain ⟨_, _, hconstant, -⟩ := Action.yields_bind.mp h
  obtain ⟨hlt, rfl⟩ := hterms.mapM
    (fun done _ acc => (∀ t ∈ done, ∀ p ∈ t.2.terms, p.1.index < n) ∧ acc = .empty n)
    ⟨by simp, rfl⟩ (by
      rintro done out t s c s' hinit ⟨hdone, rfl⟩ hy
      have ht : t ∈ e.terms := hinit.subset (by simp)
      obtain ⟨hlt, rfl⟩ := index_lt_of_yields_columnEntries
        (hne t.2 (List.mem_append_left _ (List.mem_map_of_mem ht))) hy
      exact ⟨List.forall_mem_append.mpr ⟨hdone, List.forall_mem_singleton.mpr hlt⟩, rfl⟩)
  have hlast := (index_lt_of_yields_columnEntries (hne e.constant (by simp [parts])) hconstant).1
  exact List.forall_mem_append.mpr
    ⟨List.forall_mem_map.mpr hlt, List.forall_mem_singleton.mpr hlast⟩

/-- A parameter that contributes has to have a row, or else the index is at fault. -/
theorem coefficientMatrix_of_not_lt (hne : ∀ f ∈ e.parts, ∀ t ∈ f.terms, t.2 ≠ 0)
    (h : ¬ ∀ f ∈ e.parts, ∀ t ∈ f.terms, t.1.index < n) :
    e.coefficientMatrix n m = .error .indexOutOfRange := by
  rcases hp : (e.matrixEntries n m).perform (.empty n) with ⟨c | r, acc⟩
  · obtain rfl := failsWith_matrixEntries e n m (.empty n) c (by rw [hp])
    rw [coefficientMatrix, hp]
    rfl
  · exact absurd (index_lt_of_yields_matrixEntries hne hp) h

/-- No entry lies beyond the last column if no decision variable that contributes does. -/
theorem Contributes.all_entries_iff (he : e.Contributes) :
    ((e.coefficients m).flatMap fun p => p.2.entries n p.1).all (·.2.1 ≤ m) = true
      ↔ ∀ t ∈ e.terms, t.1.index ≤ m := by
  have hne : ∀ t ∈ e.terms, t.2.entries n t.1.index ≠ [] := by
    intro t ht
    rcases he.nonzero t ht with hterms | hconstant
    · obtain ⟨s, hs⟩ := List.exists_mem_of_ne_nil _ hterms
      have hmem : s.1.index ∈ t.2.collect.map Prod.fst :=
        he.uncancelled t.2 (List.mem_append_left _ (List.mem_map_of_mem ht)) s hs
      rw [Uncertain.collect_eq] at hmem
      obtain ⟨p, hp, -⟩ := List.mem_map.mp hmem
      exact List.ne_nil_of_mem (List.mem_append_left _ (List.mem_map_of_mem hp))
    · have hz : ¬ Scalar.isZero t.2.constant = true := mt Extended.isZero_iff.mp hconstant
      simp [Uncertain.entries, hz]
  rw [List.all_eq_true]
  constructor
  · intro h t ht
    obtain ⟨s, hs⟩ := List.exists_mem_of_ne_nil _ (hne t ht)
    rw [← Uncertain.column_of_mem_entries s hs]
    exact of_decide_eq_true (h s (List.mem_flatMap.mpr ⟨_, mem_coefficients ht, hs⟩))
  · intro h s hs
    obtain ⟨p, hp, hs⟩ := List.mem_flatMap.mp hs
    rw [Uncertain.column_of_mem_entries s hs]
    exact decide_eq_true (column_le_of_mem h hp)

theorem Contributes.coefficient_ne_zero (he : e.Contributes) :
    ∀ f ∈ e.parts, ∀ t ∈ f.terms, t.2 ≠ 0 := by
  intro f hf t ht hzero
  have := he.weighty f hf t ht
  rw [hzero] at this
  revert this
  decide +kernel

/-- An expression whose symbols contribute has a matrix if every symbol has a row or a column, where
the column after those of the decision variables counts as one. -/
theorem Contributes.exists_coefficientMatrix_iff (he : e.Contributes) (n m : ℕ) :
    (∃ q, e.coefficientMatrix n m = .ok q) ↔
      (∀ t ∈ e.terms, t.1.index ≤ m) ∧ ∀ f ∈ e.parts, ∀ t ∈ f.terms, t.1.index < n := by
  by_cases hrows : ∀ f ∈ e.parts, ∀ t ∈ f.terms, t.1.index < n
  · rw [coefficientMatrix_eq_ite (forall_coefficients.mpr hrows), and_iff_left hrows,
      ← he.all_entries_iff (n := n)]
    split_ifs with hall
    · exact iff_of_true ⟨_, rfl⟩ hall
    · exact iff_of_false (by simp) hall
  · rw [coefficientMatrix_of_not_lt he.coefficient_ne_zero hrows]
    exact iff_of_false (by simp) fun h => hrows h.2

/-- What the coefficient expressions of a column have in a row. The last column has the part without
decision variables beside the terms of those variables that have its index. -/
theorem sum_feeding_share (n i j : ℕ) :
    ((e.feeding m j).map fun f => f.share n i).sum
      = (e.terms.map fun t => if t.1.index = j then t.2.share n i else 0).sum
        + if j = m then e.constant.share n i else 0 := by
  simp [sum_feeding, coefficients, Function.comp_def, eq_comm (a := m)]

/-- An expression whose symbols all contribute has a matrix if and only if every parameter has a row
and every decision variable a column, where the one of the constant counts: the variable whose index
is the number of columns is not refused, and its terms are added to those without a variable. If an
expression is refused, the index of a parameter is at fault, or else that of a decision variable. -/
theorem coefficientMatrix_placed (he : e.Contributes) (n m : ℕ) :
    ((∃ q, e.coefficientMatrix n m = .ok q) ↔
      (∀ t ∈ e.terms, t.1.index ≤ m) ∧ ∀ f ∈ e.parts, ∀ t ∈ f.terms, t.1.index < n)
    ∧ (∀ c, e.coefficientMatrix n m = .error c →
      c = if ∀ f ∈ e.parts, ∀ t ∈ f.terms, t.1.index < n then .badValue else .indexOutOfRange)
    ∧ ∀ q, e.coefficientMatrix n m = .ok q → e.Finite → ∀ i ≤ n, ∀ j ≤ m,
      q.coef i j = (e.terms.map fun t => if t.1.index = j then t.2.share n i else 0).sum
        + if j = m then e.constant.share n i else 0 := by
  have hiff := he.exists_coefficientMatrix_iff n m
  refine ⟨hiff, fun c hc => ?_, fun q hq hfin i hi j hj => ?_⟩
  · split_ifs with hrows
    · rw [coefficientMatrix_eq_ite (forall_coefficients.mpr hrows)] at hc
      split_ifs at hc
      exact (Except.error.inj hc).symm
    · rw [coefficientMatrix_of_not_lt he.coefficient_ne_zero hrows] at hc
      exact (Except.error.inj hc).symm
  · obtain ⟨hcolumns, hrows⟩ := hiff.mp ⟨q, hq⟩
    have hwithin : e.Within n m := ⟨hcolumns, forall_coefficients.mpr hrows⟩
    rw [coefficientMatrix_eq_ite hwithin.parameters, if_pos (he.all_entries_iff.mpr hcolumns)] at hq
    obtain rfl := Except.ok.inj hq
    rw [hwithin.coef_eq hfin (Nat.lt_succ_of_le hi) (Nat.lt_succ_of_le hj)]
    exact sum_feeding_share n i j

end Mixed

/-! ## A variable of a larger model -/

namespace Depot

def rate : Parameter Extended := ⟨0, 0, .text "u", .finite 1, .finite 2⟩

def stock : Decision Extended :=
  ⟨0, 0, "x", .finite 0, .posInf, ⟨0, none, .decision 0, false, false⟩⟩

/-- The second variable of another model. -/
def reserve : Decision Extended :=
  ⟨1, 1, "y", .negInf, .posInf, ⟨2, none, .decision 1, false, false⟩⟩

/-- `x + u y`. -/
def level : Mixed Extended where
  terms := [(stock, .ofConstant (.finite 1)), (reserve, .ofParameter rate)]
  constant := .ofConstant (.finite 0)

theorem level_contributes : level.Contributes where
  weighty := by decide +kernel
  uncancelled := by decide +kernel
  nonzero := by
    simp only [level, List.forall_mem_cons]
    exact ⟨.inr (by decide), .inl (by simp [Uncertain.ofParameter]), by simp⟩

theorem level_finite : level.Finite := by
  simp only [level, Mixed.Finite, Uncertain.Finite, List.forall_mem_cons, Uncertain.ofConstant,
    Uncertain.ofParameter]
  simp

/-- With a column for one variable only, the parameter that multiplies the second one is in the
column of the constant. With no column at all the second one is refused. -/
theorem level_coefficientMatrix_placed : level.Contributes
    ∧ (∃ q, level.coefficientMatrix 1 1 = .ok q ∧ q.coef 0 1 = 1 ∧ q.coef 1 0 = 1)
    ∧ (∃ c, level.coefficientMatrix 1 0 = .error c)
    ∧ ∀ c, level.coefficientMatrix 1 0 = .error c → c = .badValue := by
  have hrows : ∀ f ∈ level.parts, ∀ t ∈ f.terms, t.1.index < 1 := by decide +kernel
  obtain ⟨hiff, -, hcoef⟩ := Mixed.coefficientMatrix_placed level_contributes 1 1
  obtain ⟨q, hq⟩ := hiff.mpr ⟨by decide +kernel, hrows⟩
  obtain ⟨hrefused, hfault, -⟩ := Mixed.coefficientMatrix_placed level_contributes 1 0
  refine ⟨level_contributes, ⟨q, hq, ?_, ?_⟩, ?_, fun c hc => by rw [hfault c hc, if_pos hrows]⟩
  · rw [hcoef q hq level_finite 0 (by decide) 1 (by decide)]
    decide +kernel
  · rw [hcoef q hq level_finite 1 (by decide) 0 (by decide)]
    decide +kernel
  · cases hc : level.coefficientMatrix 1 0 with
    | error c => exact ⟨c, rfl⟩
    | ok q => exact absurd (hrefused.mp ⟨q, hc⟩).1 (by decide +kernel)

/-- So it is not the case that every variable without a column of its own is refused. -/
theorem not_exists_coefficientMatrix_iff : ¬ ∀ (e : Mixed Extended) (n m : ℕ), e.Contributes →
    ((∃ q, e.coefficientMatrix n m = .ok q) ↔
      (∀ t ∈ e.terms, t.1.index < m) ∧ ∀ f ∈ e.parts, ∀ t ∈ f.terms, t.1.index < n) := by
  intro h
  have hplaced : ∃ q, level.coefficientMatrix 1 1 = .ok q :=
    (level_contributes.exists_coefficientMatrix_iff 1 1).mpr (by decide +kernel)
  exact absurd ((h level 1 1 level_contributes).mp hplaced).1 (by decide +kernel)

end Depot

end RobustOpt
