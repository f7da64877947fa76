import RobustOpt.Proofs.Bilinear.Placement

/-!
# Finite data stay finite

An undefined or infinite coefficient can only come from one that was there before: what an
accumulator collects from finite terms is finite, and so is the matrix of a finite expression. A
linear expression has finite coefficients exactly if its values are finite, so that the coefficients
of a constraint are judged by its values at any one point.

## Main definitions

* `Accumulator.IsFinite`: no slot holds an undefined or infinite value.
* `LinearConstraint.IsFinite`: no row has an undefined or infinite coefficient.

## Main statements

* `Mixed.Finite.shaped`: the matrix of a finite expression.
* `Affine.finite_form_iff`: finite coefficients are told by a value.
-/

namespace RobustOpt

open Bilinear

/-! ## Accumulators -/

namespace Accumulator

variable {acc acc' : Accumulator Extended}

/-- All slots are finite. -/
def IsFinite (acc : Accumulator Extended) : Prop := ∀ x ∈ acc.slots, Scalar.isFinite x = true

theorem isFinite_empty (n : ℕ) : (empty n : Accumulator Extended).IsFinite := by
  intro x hx
  obtain rfl := (List.mem_replicate.mp hx).2
  rfl

theorem isFinite_contribute {old x : Extended} (hold : Scalar.isFinite old = true)
    (hx : Scalar.isFinite x = true) : Scalar.isFinite (contribute old x) = true := by
  unfold contribute
  dsimp only
  split_ifs
  · rfl
  · exact Extended.isFinite_add.mpr ⟨hold, hx⟩

/-- A finite contribution to a slot leaves all of them finite. -/
theorem IsFinite.add (hacc : acc.IsFinite) {i : ℤ} {x : Extended} (hx : Scalar.isFinite x = true)
    (h : (add i (.real x)).Yields acc ⟨⟩ acc') : acc'.IsFinite := by
  rw [Action.Yields, perform_add] at h
  split_ifs at h with h0
  · exact (Prod.mk.inj h).2 ▸ hacc
  · cases hk : acc.slot? i with
    | none =>
      rw [hk] at h
      cases h
    | some k =>
      rw [hk] at h
      dsimp only at h
      split_ifs at h with hfull
      · cases h
      · obtain rfl : _ = acc' := (Prod.mk.inj h).2
        intro y hy
        obtain ⟨j, hj, rfl⟩ := List.mem_iff_getElem.mp hy
        have hj' : j < acc.slots.length := by simpa using hj
        have hold : Scalar.isFinite acc.slots[j] = true := hacc _ (List.getElem_mem hj')
        rw [List.getElem_modify]
        split_ifs
        exacts [isFinite_contribute hold hx, hold]

theorem IsFinite.clear (hacc : acc.IsFinite) : acc.clear.IsFinite := by
  obtain ⟨slots, recorded⟩ := acc
  induction recorded generalizing slots with
  | nil => exact hacc
  | cons i is ih =>
    rw [clear_cons]
    refine ih _ ?_
    cases Position.find? slots.length i with
    | none => exact hacc
    | some k =>
      intro x hx
      rcases List.mem_or_eq_of_mem_set hx with hx | rfl
      exacts [hacc x hx, rfl]

theorem IsFinite.items (hacc : acc.IsFinite) : ∀ t ∈ acc.items, Scalar.isFinite t.2 = true := by
  refine List.forall_mem_map.mpr fun i _ => ?_
  unfold stored
  cases hx : (acc.slot? i).bind (acc.slots[·]?) with
  | none => rfl
  | some x =>
    obtain ⟨k, -, hk⟩ := Option.bind_eq_some_iff.mp hx
    exact hacc x (List.mem_of_getElem? hk)

end Accumulator

/-! ## Matrices -/

/-- Finite terms are collected to finite coefficients, and leave no other ones behind. -/
theorem Uncertain.Finite.collectIn {f : Uncertain Extended} (hf : f.Finite)
    {acc acc' : Accumulator Extended} (hacc : acc.IsFinite) {r : List (ℕ × Extended)}
    (h : f.collectIn.Yields acc r acc') :
    (∀ t ∈ r, Scalar.isFinite t.2 = true) ∧ acc'.IsFinite := by
  unfold Uncertain.collectIn at h
  split_ifs at h
  · obtain ⟨rfl, rfl⟩ := Action.yields_pure.mp h
    exact ⟨List.forall_mem_nil _, hacc⟩
  · rw [Action.yields_modify_bind, Action.yields_bind] at h
    obtain ⟨⟨⟩, sums, hloop, h⟩ := h
    rw [Action.yields_get_bind, Action.yields_modify_bind] at h
    obtain ⟨rfl, rfl⟩ := Action.yields_pure.mp h
    have hsums : sums.IsFinite := hloop.forM (fun _ acc => acc.IsFinite) hacc.clear
      fun done t s s' hdone hs hy => hs.add (hf.2 t (hdone.subset (by simp))) hy
    exact ⟨List.forall_mem_map.mpr hsums.items, hsums.clear⟩

namespace Mixed

variable {e : Mixed Extended} {n m : ℕ}

theorem isFinite_columnEntries {f : Uncertain Extended} (hf : f.Finite)
    {acc acc' : Accumulator Extended} (hacc : acc.IsFinite) {column : ℕ}
    {r : List (ℕ × ℕ × Extended)} (h : (columnEntries n column f).Yields acc r acc') :
    (∀ t ∈ r, Scalar.isFinite t.2.2 = true) ∧ acc'.IsFinite := by
  obtain ⟨items, _, hcollect, h⟩ := Action.yields_bind.mp h
  obtain ⟨rfl, rfl⟩ := Action.yields_pure.mp h
  obtain ⟨hitems, hacc'⟩ := hf.collectIn hacc hcollect
  refine ⟨?_, hacc'⟩
  split_ifs
  · exact List.forall_mem_map.mpr hitems
  · refine List.forall_mem_append.mpr ⟨List.forall_mem_map.mpr hitems, ?_⟩
    exact List.forall_mem_singleton.mpr hf.1

/-- The matrix of a finite expression has finite entries, also where symbols with coefficient zero
have no row or column. -/
theorem Finite.shaped (he : e.Finite) {q : SparseMatrix Extended}
    (h : e.coefficientMatrix n m = .ok q) : Shaped q n m := by
  refine shaped_coefficientMatrix h ?_
  obtain ⟨entries, hentries, h⟩ := bind_eq_ok.mp h
  split_ifs at h with hall
  obtain rfl := pure_eq_ok.mp h
  have hrun : (e.matrixEntries n m).Yields (.empty n) entries
      ((e.matrixEntries n m).perform (.empty n)).2 := Prod.ext hentries rfl
  obtain ⟨lists, acc, hterms, hrun⟩ := Action.yields_bind.mp hrun
  obtain ⟨last, _, hconstant, hrun⟩ := Action.yields_bind.mp hrun
  obtain ⟨rfl, -⟩ := Action.yields_pure.mp hrun
  obtain ⟨hlists, hacc⟩ := hterms.mapM
    (fun _ out acc => (∀ l ∈ out, ∀ t ∈ l, Scalar.isFinite t.2.2 = true) ∧ acc.IsFinite)
    ⟨List.forall_mem_nil _, Accumulator.isFinite_empty n⟩ (by
      rintro done out t s c s' hdone ⟨hout, hs⟩ hy
      obtain ⟨hc, hs'⟩ := isFinite_columnEntries (he.2 t (hdone.subset (by simp))) hs hy
      exact ⟨List.forall_mem_append.mpr ⟨hout, List.forall_mem_singleton.mpr hc⟩, hs'⟩)
  have hlast := (isFinite_columnEntries he.1 hacc hconstant).1
  refine (SparseMatrix.canonical_ofEntries (List.forall_mem_append.mpr ⟨?_, hlast⟩) ?_).finite
  · intro t ht
    obtain ⟨l, hl, ht⟩ := List.mem_flatten.mp ht
    exact hlists l hl t ht
  · exact fun t ht => Nat.lt_succ_of_le (of_decide_eq_true (List.all_eq_true.mp hall t ht))

end Mixed

/-! ## Linear expressions -/

namespace Affine

/-- The coefficients of an expression are finite if its value at some point is. -/
theorem finite_form_iff (e : Affine Extended) (y : Point) :
    e.form.Finite ↔ Scalar.isFinite (e.eval y.exact) = true := by
  induction e with
  | constant c => simp [form, eval, LinearForm.Finite]
  | column name c => simp [form, eval, LinearForm.Finite]
  | neg e ih => rw [form, eval, LinearForm.finite_neg, ih, Extended.isFinite_neg]
  | add e f ihe ihf =>
    rw [form, eval, LinearForm.finite_add, ihe, ihf, Extended.isFinite_add]
  | scale c e ih => rw [form, eval, LinearForm.finite_scale, ih, Extended.isFinite_mul]
  | scaleRight e c ih =>
    rw [form, eval, LinearForm.finite_scale, ih, Extended.isFinite_mul, and_comm]
  | divide e c ih =>
    have hdiv : e.eval y.exact / c = e.eval y.exact * Extended.inv c := rfl
    rw [form, eval, LinearForm.divide_eq_scale, LinearForm.finite_scale, ih, hdiv,
      Extended.isFinite_mul, and_comm]

/-- An expression written from finite coefficients. -/
theorem exists_ofCoefficients {m : ℕ} (ds : List (Decision Extended)) (w : ℕ → ℚ)
    (hl : ds.length = m) : ∃ e, ofCoefficients (scalars (m + 1) w) ds = .ok e
      ∧ ∀ y : Point, Scalar.isFinite (e.eval y.exact) = true := by
  refine ⟨_, if_neg (by simp [hl]), fun y => ?_⟩
  have hlast : Scalar.isFinite ((scalars (m + 1) w).getLast?.getD 0) = true := by
    simp [scalars, List.range_succ]
  rw [eval_combination hlast]
  · rfl
  · refine List.forall_mem_map.mpr fun t ht => ?_
    exact isFinite_of_mem_scalars (List.of_mem_zip (List.mem_of_mem_filter ht)).1

end Affine

namespace LinearConstraint

/-- All coefficients and constants in the rows of the constraint are finite. -/
def IsFinite (c : LinearConstraint Extended) : Prop := ∀ f ∈ c.rows, f.Finite

theorem isFinite_iff (c : LinearConstraint Extended) (y : Point) : c.IsFinite ↔
    ∀ s ∈ c.sides, Scalar.isFinite (s.1.eval y.exact) = true
      ∧ Scalar.isFinite (s.2.eval y.exact) = true := by
  simp only [IsFinite, rows, List.forall_mem_map, LinearForm.finite_collected,
    LinearForm.finite_add, LinearForm.finite_neg, Affine.finite_form_iff _ y]

end LinearConstraint

end RobustOpt
