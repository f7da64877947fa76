import RobustOpt.Affine.Constraint
import RobustOpt.Proofs.Exact

/-!
# Points and affine expressions

A point gives every column a rational value. An affine expression has a value at a point, and a
linear constraint holds at it or not; both depend on the columns that occur only. The linear form
of an expression, collected or not, has the same value wherever it is finite.

## Main definitions

* `Affine.eval`, `LinearConstraint.Holds`: the meaning of expressions and constraints.
* `LinearForm.valueAt`: the value of a finite form at a point.
* `Affine.Within`: the columns of an expression.

## Main statements

* `Affine.eval_eq_valueAt`: an expression and its form have one value.
* `LinearConstraint.holds_iff_rows`: a constraint holds where its rows do.
-/

namespace RobustOpt

/-- Values of all columns. -/
abbrev Point := Column → ℚ

/-- The values of a point as scalars. -/
def Point.exact (x : Point) : Column → Extended := fun c => .finite (x c)

@[simp] theorem Point.exact_apply (x : Point) (c : Column) : x.exact c = .finite (x c) := rfl

section Meaning

variable {α : Type} [Scalar α]

/-- The value of an expression at given values of the columns. -/
def Affine.eval (v : Column → α) : Affine α → α
  | constant c => c
  | column _ c => v c
  | neg e => -e.eval v
  | add e f => e.eval v + f.eval v
  | scale c e => c * e.eval v
  | scaleRight e c => e.eval v * c
  | divide e c => e.eval v / c

/-- Whether two values are related. -/
def Relation.holds (x y : α) : Relation → Bool
  | atMost => Scalar.le x y
  | equal => Scalar.eq x y

/-- Every comparison of the constraint is true. -/
def LinearConstraint.Holds (v : Column → α) (c : LinearConstraint α) : Prop :=
  ∀ s ∈ c.sides, c.relation.holds (s.1.eval v) (s.2.eval v) = true

end Meaning

/-! ## Linear forms -/

namespace LinearForm

/-- Whether the constant and all coefficients are finite. -/
def Finite (f : LinearForm Extended) : Prop :=
  Scalar.isFinite f.constant = true ∧ ∀ t ∈ f.terms, Scalar.isFinite t.2 = true

/-- The sum of the terms at a point. -/
def termsAt (x : Point) (terms : List (Column × Extended)) : ℚ :=
  (terms.map fun t => t.2.rat * x t.1).sum

/-- The value at a point. -/
def valueAt (f : LinearForm Extended) (x : Point) : ℚ := f.constant.rat + termsAt x f.terms

@[simp] theorem termsAt_nil (x : Point) : termsAt x [] = 0 := rfl

@[simp] theorem termsAt_cons (x : Point) (t : Column × Extended) (ts : List (Column × Extended)) :
    termsAt x (t :: ts) = t.2.rat * x t.1 + termsAt x ts := by
  simp [termsAt]

@[simp] theorem termsAt_append (x : Point) (ts us : List (Column × Extended)) :
    termsAt x (ts ++ us) = termsAt x ts + termsAt x us := by
  simp [termsAt]

/-- Terms whose coefficients are all multiplied by one number. -/
theorem termsAt_map {f : Extended → Extended} {k : ℚ} {ts : List (Column × Extended)}
    (h : ∀ t ∈ ts, (f t.2).rat = k * t.2.rat) (x : Point) :
    termsAt x (ts.map fun t => (t.1, f t.2)) = k * termsAt x ts := by
  induction ts with
  | nil => simp
  | cons t ts ih =>
    rw [List.map_cons, termsAt_cons, termsAt_cons, ih fun u hu => h u (by simp [hu]),
      h t (by simp)]
    ring

theorem finite_neg {f : LinearForm Extended} : f.neg.Finite ↔ f.Finite := by
  simp only [Finite, neg, List.forall_mem_map, Extended.isFinite_neg]

theorem finite_add {f g : LinearForm Extended} : (f.add g).Finite ↔ f.Finite ∧ g.Finite := by
  simp only [Finite, add, Extended.isFinite_add, List.mem_append, or_imp, forall_and]
  tauto

theorem finite_scale {c : Extended} {f : LinearForm Extended} :
    (f.scale c).Finite ↔ Scalar.isFinite c = true ∧ f.Finite := by
  simp only [Finite, scale, Extended.isFinite_mul, List.forall_mem_map]
  constructor
  · rintro ⟨⟨hc, hf⟩, ht⟩
    exact ⟨hc, hf, fun t h => (ht t h).2⟩
  · rintro ⟨hc, hf, ht⟩
    exact ⟨⟨hc, hf⟩, fun t h => ⟨hc, ht t h⟩⟩

theorem valueAt_neg {f : LinearForm Extended} (hf : f.Finite) (x : Point) :
    f.neg.valueAt x = -f.valueAt x := by
  have hterms := termsAt_map (f := (- ·)) (k := -1)
    (fun t ht => by rw [Extended.rat_neg (hf.2 t ht), neg_one_mul]) x
  simp only [valueAt, neg, Extended.rat_neg hf.1, hterms]
  ring

theorem valueAt_add {f g : LinearForm Extended} (hf : f.Finite) (hg : g.Finite) (x : Point) :
    (f.add g).valueAt x = f.valueAt x + g.valueAt x := by
  simp only [valueAt, add, Extended.rat_add hf.1 hg.1, termsAt_append]
  ring

theorem valueAt_scale {c : Extended} {f : LinearForm Extended} (hc : Scalar.isFinite c = true)
    (hf : f.Finite) (x : Point) : (f.scale c).valueAt x = c.rat * f.valueAt x := by
  have hterms := termsAt_map (f := (c * ·)) (fun t ht => Extended.rat_mul hc (hf.2 t ht)) x
  simp only [valueAt, scale, Extended.rat_mul hc hf.1, hterms]
  ring

/-- Division is multiplication with the inverse. -/
theorem divide_eq_scale (f : LinearForm Extended) (c : Extended) :
    f.divide c = f.scale (Extended.inv c) := by
  have hcomm : ∀ y : Extended, y / c = Extended.inv c * y := by
    intro y
    show Extended.mul y (Extended.inv c) = Extended.mul (Extended.inv c) y
    cases y <;> cases Extended.inv c <;> simp [Extended.mul, mul_comm]
  simp [divide, scale, hcomm]

/-! ## Collecting -/

theorem mem_map_fst_insert {c d : Column} {q : Extended} {ts : List (Column × Extended)} :
    d ∈ (insert c q ts).map Prod.fst ↔ d = c ∨ d ∈ ts.map Prod.fst := by
  induction ts with
  | nil => simp [insert]
  | cons t ts ih =>
    obtain ⟨e, y⟩ := t
    unfold insert
    split_ifs with h
    · subst h
      simp
    · simp only [List.map_cons, List.mem_cons, ih]
      tauto

theorem finite_insert {c : Column} {q : Extended} {ts : List (Column × Extended)} :
    (∀ t ∈ insert c q ts, Scalar.isFinite t.2 = true)
      ↔ Scalar.isFinite q = true ∧ ∀ t ∈ ts, Scalar.isFinite t.2 = true := by
  induction ts with
  | nil => simp [insert]
  | cons t ts ih =>
    obtain ⟨d, y⟩ := t
    unfold insert
    split_ifs
    · simp [Extended.isFinite_add]
      tauto
    · simp only [List.forall_mem_cons, ih]
      tauto

theorem termsAt_insert {c : Column} {q : Extended} {ts : List (Column × Extended)}
    (hq : Scalar.isFinite q = true) (ht : ∀ t ∈ ts, Scalar.isFinite t.2 = true) (x : Point) :
    termsAt x (insert c q ts) = q.rat * x c + termsAt x ts := by
  induction ts with
  | nil => simp [insert]
  | cons t ts ih =>
    obtain ⟨d, y⟩ := t
    unfold insert
    split_ifs with h
    · subst h
      have hy : Scalar.isFinite y = true := ht (c, y) (by simp)
      rw [termsAt_cons, termsAt_cons, Extended.rat_add hy hq]
      ring
    · rw [termsAt_cons, termsAt_cons, ih fun t h => ht t (by simp [h])]
      ring

/-- The terms of a collected form before they are put in order. -/
def gathered (ts : List (Column × Extended)) : List (Column × Extended) :=
  ts.foldl (fun acc t => insert t.1 t.2 acc) []

theorem collected_terms_perm (f : LinearForm Extended) :
    f.collected.terms.Perm (gathered f.terms) :=
  Column.inOrder_perm _ _

/-- What gathering keeps: columns, finiteness and the value of finite terms. The induction is from
the right, the way the terms are inserted. -/
theorem gathered_spec (ts : List (Column × Extended)) :
    (∀ d, d ∈ (gathered ts).map Prod.fst ↔ d ∈ ts.map Prod.fst)
      ∧ ((∀ t ∈ gathered ts, Scalar.isFinite t.2 = true) ↔ ∀ t ∈ ts, Scalar.isFinite t.2 = true)
      ∧ ∀ x, (∀ t ∈ ts, Scalar.isFinite t.2 = true) → termsAt x (gathered ts) = termsAt x ts := by
  induction ts using List.reverseRecOn with
  | nil => simp [gathered]
  | append_singleton ts t ih =>
    obtain ⟨hcol, hfin, hval⟩ := ih
    have hstep : gathered (ts ++ [t]) = insert t.1 t.2 (gathered ts) := by simp [gathered]
    refine ⟨fun d => ?_, ?_, fun x h => ?_⟩
    · rw [hstep, mem_map_fst_insert, hcol]
      simp [or_comm]
    · rw [hstep, finite_insert, hfin]
      simp [or_imp, forall_and, and_comm]
    · have hts : ∀ u ∈ ts, Scalar.isFinite u.2 = true := fun u hu => h u (by simp [hu])
      rw [hstep, termsAt_insert (h t (by simp)) (hfin.mpr hts), hval x hts]
      simp [add_comm]

@[simp] theorem mem_columns_collected {f : LinearForm Extended} {c : Column} :
    c ∈ f.collected.columns ↔ c ∈ f.columns := by
  rw [columns, ((collected_terms_perm f).map Prod.fst).mem_iff]
  exact (gathered_spec f.terms).1 c

theorem finite_collected {f : LinearForm Extended} : f.collected.Finite ↔ f.Finite := by
  refine and_congr Iff.rfl ?_
  rw [← (gathered_spec f.terms).2.1]
  simp only [(collected_terms_perm f).mem_iff]

theorem valueAt_collected {f : LinearForm Extended} (hf : f.Finite) (x : Point) :
    f.collected.valueAt x = f.valueAt x := by
  have : termsAt x f.collected.terms = termsAt x (gathered f.terms) :=
    ((collected_terms_perm f).map _).sum_eq
  rw [valueAt, this, (gathered_spec f.terms).2.2 x hf.2]
  rfl

end LinearForm

/-! ## Expressions -/

namespace Affine

/-- An expression whose form is finite has the value of its form. -/
theorem eval_eq_valueAt {e : Affine Extended} (h : e.form.Finite) (x : Point) :
    e.eval x.exact = .finite (e.form.valueAt x) := by
  induction e with
  | constant c =>
    have hc : Scalar.isFinite c = true := h.1
    simp [eval, form, LinearForm.valueAt, hc]
  | column name c => simp [eval, form, LinearForm.valueAt]
  | neg e ih =>
    have he : e.form.Finite := LinearForm.finite_neg.mp h
    rw [eval, ih he, form, LinearForm.valueAt_neg he, Extended.neg_finite]
  | add e f ihe ihf =>
    obtain ⟨he, hf⟩ := LinearForm.finite_add.mp h
    rw [eval, ihe he, ihf hf, form, LinearForm.valueAt_add he hf, Extended.finite_add]
  | scale c e ih =>
    obtain ⟨hc, he⟩ := LinearForm.finite_scale.mp h
    rw [eval, ih he, form, LinearForm.valueAt_scale hc he, ← Extended.finite_mul,
      Extended.finite_rat hc]
  | scaleRight e c ih =>
    obtain ⟨hc, he⟩ := LinearForm.finite_scale.mp h
    rw [eval, ih he, form, LinearForm.valueAt_scale hc he, mul_comm, ← Extended.finite_mul,
      Extended.finite_rat hc]
  | divide e c ih =>
    rw [form, LinearForm.divide_eq_scale] at h
    obtain ⟨hc, he⟩ := LinearForm.finite_scale.mp h
    rw [eval, ih he, form, LinearForm.divide_eq_scale, LinearForm.valueAt_scale hc he, mul_comm,
      ← Extended.finite_mul, Extended.finite_rat hc]
    rfl

/-- All columns of the expression have the property. -/
def Within (P : Column → Prop) (e : Affine Extended) : Prop := ∀ c ∈ e.form.columns, P c

variable {P Q : Column → Prop}

theorem Within.mono {e : Affine Extended} (h : e.Within P) (hPQ : ∀ c, P c → Q c) : e.Within Q :=
  fun c hc => hPQ c (h c hc)

@[simp] theorem within_constant (c : Extended) : (constant c).Within P := by
  simp [Within, form, LinearForm.columns]

@[simp] theorem within_column (name : String) (c : Column) : (column name c).Within P ↔ P c := by
  simp [Within, form, LinearForm.columns]

@[simp] theorem within_neg (e : Affine Extended) : (neg e).Within P ↔ e.Within P := by
  simp [Within, form]

@[simp] theorem within_add (e f : Affine Extended) :
    (add e f).Within P ↔ e.Within P ∧ f.Within P := by
  simp [Within, form, or_imp, forall_and]

@[simp] theorem within_scale (c : Extended) (e : Affine Extended) :
    (scale c e).Within P ↔ e.Within P := by
  simp [Within, form]

/-- Expressions have equal values where their columns do. -/
theorem eval_congr {e : Affine Extended} {v w : Column → Extended}
    (h : e.Within fun c => v c = w c) : e.eval v = e.eval w := by
  induction e with
  | constant c => rfl
  | column name c => exact (within_column name c).mp h
  | neg e ih =>
    rw [eval, eval, ih ((within_neg e).mp h)]
  | add e f ihe ihf =>
    obtain ⟨he, hf⟩ := (within_add e f).mp h
    rw [eval, eval, ihe he, ihf hf]
  | scale c e ih =>
    rw [eval, eval, ih ((within_scale c e).mp h)]
  | scaleRight e c ih =>
    have he : e.Within fun c => v c = w c := by simpa [Within, form] using h
    rw [eval, eval, ih he]
  | divide e c ih =>
    have he : e.Within fun c => v c = w c := by
      simpa [Within, form, LinearForm.columns, LinearForm.divide] using h
    rw [eval, eval, ih he]

/-- A finite expression has one value at all points that agree on its columns. -/
theorem eval_of_agree {e : Affine Extended} (hfin : e.form.Finite) (he : e.Within P) {x y : Point}
    (h : ∀ c, P c → y c = x c) : e.eval y.exact = .finite (e.form.valueAt x) := by
  rw [← eval_eq_valueAt hfin x]
  exact eval_congr (he.mono fun c hc => by simp [h c hc])

/-! ## Combinations of columns -/

/-- A constant plus multiples of columns. -/
theorem eval_combination {c : Extended} {terms : List (Extended × String × Column)}
    (hc : Scalar.isFinite c = true) (ht : ∀ t ∈ terms, Scalar.isFinite t.1 = true) (x : Point) :
    (combination c terms).eval x.exact
      = .finite (c.rat + (terms.map fun t => t.1.rat * x t.2.2).sum) := by
  suffices h : ∀ (e : Affine Extended) (q : ℚ), e.eval x.exact = .finite q →
      (terms.foldl (fun e t => add e (scale t.1 (column t.2.1 t.2.2))) e).eval x.exact
        = .finite (q + (terms.map fun t => t.1.rat * x t.2.2).sum) from
    h _ _ (by rw [eval, Extended.finite_rat hc])
  induction terms with
  | nil => simp
  | cons t terms ih =>
    intro e q he
    obtain ⟨a, ha⟩ := Extended.isFinite_iff.mp (ht t (by simp))
    rw [List.foldl_cons, ih (fun u hu => ht u (by simp [hu])) _ (q + a * x t.2.2)
      (by simp [eval, he, ha])]
    simp [ha, add_assoc]

theorem within_combination {c : Extended} {terms : List (Extended × String × Column)} :
    (combination c terms).Within P ↔ ∀ t ∈ terms, P t.2.2 := by
  suffices h : ∀ e : Affine Extended,
      (terms.foldl (fun e t => add e (scale t.1 (column t.2.1 t.2.2))) e).Within P
        ↔ e.Within P ∧ ∀ t ∈ terms, P t.2.2 by
    simpa [combination] using h (constant c)
  induction terms with
  | nil => simp
  | cons t terms ih => simp [ih, and_assoc]

end Affine

/-! ## Constraints -/

namespace LinearConstraint

/-- All columns of the constraint have the property. -/
def Within (P : Column → Prop) (c : LinearConstraint Extended) : Prop :=
  ∀ s ∈ c.sides, s.1.Within P ∧ s.2.Within P

theorem Within.mono {P Q : Column → Prop} {c : LinearConstraint Extended} (h : c.Within P)
    (hPQ : ∀ c, P c → Q c) : c.Within Q :=
  fun s hs => ⟨(h s hs).1.mono hPQ, (h s hs).2.mono hPQ⟩

theorem within_iff_columns {P : Column → Prop} {c : LinearConstraint Extended} :
    c.Within P ↔ ∀ d ∈ c.columns, P d := by
  simp only [Within, Affine.Within, columns, rows, List.flatMap_map, List.mem_flatMap,
    LinearForm.mem_columns_collected, LinearForm.columns_add, LinearForm.columns_neg,
    List.mem_append, forall_exists_index, and_imp, or_imp]
  constructor
  · intro h d s hs
    exact ⟨(h s hs).1 d, (h s hs).2 d⟩
  · intro h s hs
    exact ⟨fun d => (h d s hs).1, fun d => (h d s hs).2⟩

/-- A constraint holds at all or none of the points that agree on its columns. -/
theorem holds_congr {c : LinearConstraint Extended} {v w : Column → Extended}
    (h : c.Within fun d => v d = w d) : c.Holds v ↔ c.Holds w := by
  refine forall₂_congr fun s hs => ?_
  rw [Affine.eval_congr (h s hs).1, Affine.eval_congr (h s hs).2]

/-- What a row says at a point. -/
def RowHolds (relation : Relation) (f : LinearForm Extended) (x : Point) : Prop :=
  match relation with
  | .atMost => f.valueAt x ≤ 0
  | .equal => f.valueAt x = 0

/-- If the rows of a constraint are finite, it holds exactly where all of them do. -/
theorem holds_iff_rows {c : LinearConstraint Extended} (h : ∀ f ∈ c.rows, f.Finite) (x : Point) :
    c.Holds x.exact ↔ ∀ f ∈ c.rows, RowHolds c.relation f x := by
  simp only [rows, List.forall_mem_map] at h ⊢
  refine forall₂_congr fun s hs => ?_
  have hfin := LinearForm.finite_collected.mp (h s hs)
  obtain ⟨hl, hr⟩ := LinearForm.finite_add.mp hfin
  have hr' := LinearForm.finite_neg.mp hr
  rw [Affine.eval_eq_valueAt hl, Affine.eval_eq_valueAt hr']
  have hval : ((s.1.form.add s.2.form.neg).collected).valueAt x
      = s.1.form.valueAt x - s.2.form.valueAt x := by
    rw [LinearForm.valueAt_collected hfin, LinearForm.valueAt_add hl hr,
      LinearForm.valueAt_neg hr', sub_eq_add_neg]
  cases c.relation
  · simp only [Relation.holds, RowHolds, hval, Extended.le_finite, decide_eq_true_eq, sub_nonpos]
  · simp only [Relation.holds, RowHolds, hval, Extended.eq_finite, decide_eq_true_eq, sub_eq_zero]

end LinearConstraint

end RobustOpt
