import Mathlib.Logic.Function.Basic
import RobustOpt.Master

/-!
# Renaming columns

The linear problem of a master does not depend on which columns stand for its unknowns, as long as
their order is kept: a master with renamed columns is solved alike, and gives the renamed columns
the same values.

## Main definitions

* `Column.Renaming`: an injective renaming that keeps the order of creation.
* `LinearForm.rename`, `Affine.rename`, `LinearConstraint.rename`, `Master.rename`: what it does to
  the things made of columns.

## Main statements

* `Master.toProblem_rename`: renaming does not change the linear problem.
* `Master.solve_rename`: a renamed master is solved alike.
-/

namespace RobustOpt

/-- An injective renaming of columns that keeps their order and what is required of them. -/
structure Column.Renaming where
  toFun : Column → Column
  injective : Function.Injective toFun
  precedes_eq : ∀ c d, (toFun c).precedes (toFun d) = c.precedes d
  nonneg_eq : ∀ c, (toFun c).nonneg = c.nonneg
  integer_eq : ∀ c, (toFun c).integer = c.integer

instance : CoeFun Column.Renaming fun _ => Column → Column := ⟨Column.Renaming.toFun⟩

variable (ρ : Column.Renaming)

/-! ## Lists of columns -/

namespace Column

section Order

variable {β γ : Type} {column : β → Column} {column' : γ → Column} {f : β → γ}

theorem insertInOrder_map (hf : ∀ b, column' (f b) = ρ (column b)) (b : β) (l : List β) :
    insertInOrder column' (f b) (l.map f) = (insertInOrder column b l).map f := by
  induction l with
  | nil => rfl
  | cons c l ih =>
    rw [List.map_cons, insertInOrder, insertInOrder, hf, hf, ρ.precedes_eq, ih]
    split <;> rfl

theorem inOrder_map (hf : ∀ b, column' (f b) = ρ (column b)) (l : List β) :
    inOrder column' (l.map f) = (inOrder column l).map f := by
  induction l with
  | nil => rfl
  | cons b l ih =>
    rw [List.map_cons]
    show insertInOrder column' (f b) (inOrder column' (l.map f)) = _
    rw [ih, insertInOrder_map ρ hf]
    rfl

end Order

theorem eraseDups_map (l : List Column) : (l.map ρ).eraseDups = l.eraseDups.map ρ := by
  match l with
  | [] => simp
  | c :: l =>
    have hfilter : (l.map ρ).filter (fun d => !d == ρ c) = (l.filter fun d => !d == c).map ρ := by
      rw [List.filter_map]
      congr 2
      funext d
      simp [ρ.injective.eq_iff]
    rw [List.map_cons, List.eraseDups_cons, List.eraseDups_cons, hfilter, List.map_cons,
      eraseDups_map]
termination_by l.length
decreasing_by exact Nat.lt_succ_of_le (List.length_filter_le _ _)

end Column

/-! ## Forms and expressions -/

namespace LinearForm

variable {α : Type} [Scalar α]

omit [Scalar α] in
def rename (f : LinearForm α) : LinearForm α :=
  ⟨f.constant, f.terms.map (Prod.map ρ id)⟩

omit [Scalar α] in
@[simp] theorem columns_rename (f : LinearForm α) : (f.rename ρ).columns = f.columns.map ρ := by
  simp [rename, columns, Function.comp_def]

theorem rename_neg (f : LinearForm α) : f.neg.rename ρ = (f.rename ρ).neg := by
  simp [rename, neg, Function.comp_def]

theorem rename_add (f g : LinearForm α) : (f.add g).rename ρ = (f.rename ρ).add (g.rename ρ) := by
  simp [rename, add]

theorem rename_scale (c : α) (f : LinearForm α) : (f.scale c).rename ρ = (f.rename ρ).scale c := by
  simp [rename, scale, Function.comp_def]

theorem rename_divide (f : LinearForm α) (c : α) :
    (f.divide c).rename ρ = (f.rename ρ).divide c := by
  simp [rename, divide, Function.comp_def]

theorem insert_map (c : Column) (x : α) (ts : List (Column × α)) :
    insert (ρ c) x (ts.map (Prod.map ρ id)) = (insert c x ts).map (Prod.map ρ id) := by
  induction ts with
  | nil => rfl
  | cons t ts ih =>
    obtain ⟨d, y⟩ := t
    rw [List.map_cons, Prod.map_apply, insert, insert, ih]
    simp only [ρ.injective.eq_iff]
    split <;> rfl

theorem rename_collected (f : LinearForm α) : f.collected.rename ρ = (f.rename ρ).collected := by
  have hfold : ∀ ts acc : List (Column × α),
      (ts.map (Prod.map ρ id)).foldl (fun acc t => insert t.1 t.2 acc) (acc.map (Prod.map ρ id))
        = (ts.foldl (fun acc t => insert t.1 t.2 acc) acc).map (Prod.map ρ id) := by
    intro ts
    induction ts with
    | nil => exact fun _ => rfl
    | cons t ts ih =>
      intro acc
      rw [List.map_cons, List.foldl_cons, List.foldl_cons, ← ih, ← insert_map]
      rfl
  have hcolumn : ∀ t : Column × α, (Prod.map ρ id t).1 = ρ t.1 := fun _ => rfl
  have hterms : (f.rename ρ).collected.terms = (f.collected.rename ρ).terms :=
    (congrArg _ (hfold f.terms [])).trans (Column.inOrder_map ρ hcolumn _)
  exact congrArg (LinearForm.mk f.constant) hterms.symm

end LinearForm

namespace Affine

variable {α : Type} [Scalar α]

omit [Scalar α] in
/-- Renamed columns go by their labels, all others keep their names. -/
def rename : Affine α → Affine α
  | constant c => constant c
  | column name c => column (if ρ c = c then name else (ρ c).label) (ρ c)
  | neg e => neg e.rename
  | add e f => add e.rename f.rename
  | scale c e => scale c e.rename
  | scaleRight e c => scaleRight e.rename c
  | divide e c => divide e.rename c

theorem form_rename (e : Affine α) : (e.rename ρ).form = e.form.rename ρ := by
  induction e with
  | constant | column => rfl
  | neg e ih => rw [rename, form, form, ih, LinearForm.rename_neg]
  | add e f ihe ihf => rw [rename, form, form, ihe, ihf, LinearForm.rename_add]
  | scale c e ih | scaleRight e c ih => rw [rename, form, form, ih, LinearForm.rename_scale]
  | divide e c ih => rw [rename, form, form, ih, LinearForm.rename_divide]

/-- An expression of columns that keep their names stays as it is. -/
theorem rename_eq_self {e : Affine α} (h : ∀ c ∈ e.form.columns, ρ c = c) : e.rename ρ = e := by
  induction e with
  | constant => rfl
  | column name c =>
    have hc : ρ c = c := h c (by simp [form, LinearForm.columns])
    rw [rename, if_pos hc, hc]
  | neg e ih => rw [rename, ih (by simpa [form] using h)]
  | add e f ihe ihf =>
    rw [rename, ihe fun c hc => h c (by simp [form, hc]), ihf fun c hc => h c (by simp [form, hc])]
  | scale c e ih | scaleRight e c ih => rw [rename, ih (by simpa [form] using h)]
  | divide e c ih =>
    rw [rename, ih fun d hd => h d ?_]
    simpa [form, LinearForm.divide, LinearForm.columns] using hd

end Affine

/-! ## Masters -/

namespace LinearConstraint

variable {α : Type} [Scalar α]

omit [Scalar α] in
def rename (c : LinearConstraint α) : LinearConstraint α :=
  ⟨c.relation, c.sides.map fun s => (s.1.rename ρ, s.2.rename ρ)⟩

theorem rows_rename (c : LinearConstraint α) :
    (c.rename ρ).rows = c.rows.map (LinearForm.rename ρ) := by
  simp [rows, rename, Affine.form_rename, LinearForm.rename_collected, LinearForm.rename_add,
    LinearForm.rename_neg, Function.comp_def]

theorem columns_rename (c : LinearConstraint α) : (c.rename ρ).columns = c.columns.map ρ := by
  simp [columns, rows_rename, List.flatMap_map, List.map_flatMap]

omit [Scalar α] in
theorem rename_eq_self {c : LinearConstraint α}
    (h : ∀ s ∈ c.sides, s.1.rename ρ = s.1 ∧ s.2.rename ρ = s.2) : c.rename ρ = c := by
  unfold rename
  rw [List.map_congr_left (g := id) fun s hs => Prod.ext (h s hs).1 (h s hs).2, List.map_id]

end LinearConstraint

namespace Master

variable {α : Type} [Scalar α]

omit [Scalar α] in
def rename (m : Master α) : Master α :=
  ⟨{ m.objective with expr := m.objective.expr.rename ρ },
    m.constraints.map (LinearConstraint.rename ρ), m.outcome⟩

omit [Scalar α] in
@[simp] theorem value?_rename (m : Master α) : (m.rename ρ).value? = m.value? := rfl

omit [Scalar α] in
@[simp] theorem length_constraints_rename (m : Master α) :
    (m.rename ρ).constraints.length = m.constraints.length :=
  List.length_map _

theorem columns_rename (m : Master α) : (m.rename ρ).columns = m.columns.map ρ := by
  have hmap : (m.rename ρ).objective.expr.form.columns
      ++ (m.rename ρ).constraints.flatMap LinearConstraint.columns
      = (m.objective.expr.form.columns
        ++ m.constraints.flatMap LinearConstraint.columns).map ρ := by
    simp [rename, Affine.form_rename, List.flatMap_map, List.map_flatMap,
      LinearConstraint.columns_rename]
  have hcolumn : ∀ c : Column, id (ρ c) = ρ (id c) := fun _ => rfl
  rw [columns, hmap, Column.eraseDups_map, Column.inOrder_map ρ hcolumn]
  rfl

/-- The terms of a form with rational coefficients. -/
def rationalTerms (ts : List (Column × α)) : Except (Fault α) (List (Column × Rat)) :=
  ts.mapM fun t => do return (t.1, ← rational t.2)

theorem rationalTerms_map (ts : List (Column × α)) :
    rationalTerms (ts.map (Prod.map ρ id)) = (rationalTerms ts).map (List.map (Prod.map ρ id)) := by
  induction ts with
  | nil => rfl
  | cons t ts ih =>
    unfold rationalTerms at ih ⊢
    rw [List.map_cons, List.mapM_cons, List.mapM_cons, ih]
    generalize (ts.mapM fun t => do return (t.1, ← rational t.2)) = rest
    show ((rational t.2 >>= _) >>= _) = ((rational t.2 >>= _) >>= _).map _
    cases rational t.2 with
    | error e => rfl
    | ok q => cases rest <;> rfl

/-- Coefficients are found under the renamed columns. -/
theorem coefficients_rename (cols : List Column) (f : LinearForm α) :
    coefficients (cols.map ρ) (f.rename ρ) = coefficients cols f := by
  show (rationalTerms (f.terms.map (Prod.map ρ id)) >>= _) = (rationalTerms f.terms >>= _)
  rw [rationalTerms_map]
  cases rationalTerms f.terms with
  | error e => rfl
  | ok ts =>
    show Except.ok ((cols.map ρ).map _) = Except.ok (cols.map _)
    rw [List.map_map]
    congr 1
    refine List.map_congr_left fun c _ => ?_
    show ((ts.map (Prod.map ρ id)).filter _).foldl _ _ = _
    rw [List.filter_map, List.foldl_map]
    congr 2
    funext t
    simp [ρ.injective.eq_iff]

theorem problemRow_rename (cols : List Column) (relation : Relation) (f : LinearForm α) :
    problemRow (cols.map ρ) relation (f.rename ρ) = problemRow cols relation f := by
  unfold problemRow
  rw [coefficients_rename]
  rfl

theorem problemRows_rename (cols : List Column) (c : LinearConstraint α) :
    problemRows (cols.map ρ) (c.rename ρ) = problemRows cols c := by
  unfold problemRows
  rw [LinearConstraint.rows_rename, List.mapM_map]
  congr 1
  funext f
  exact problemRow_rename ρ cols c.relation f

/-- The linear problem does not depend on the columns that stand for its unknowns. -/
theorem toProblem_rename (m : Master α) : (m.rename ρ).toProblem = m.toProblem := by
  have hform : (m.rename ρ).objective.expr.form = m.objective.expr.form.rename ρ :=
    Affine.form_rename ρ _
  have hrows : (m.rename ρ).constraints.mapM (problemRows (m.columns.map ρ))
      = m.constraints.mapM (problemRows m.columns) := by
    rw [show (m.rename ρ).constraints = m.constraints.map (LinearConstraint.rename ρ) from rfl,
      List.mapM_map]
    congr 1
    funext c
    exact problemRows_rename ρ m.columns c
  have hunknowns : (m.columns.map ρ).map (fun c => LinearProblem.Unknown.mk c.nonneg c.integer)
      = m.columns.map fun c => ⟨c.nonneg, c.integer⟩ := by
    simp [ρ.nonneg_eq, ρ.integer_eq]
  unfold toProblem
  simp only [columns_rename, hform, coefficients_rename, hrows, hunknowns]
  rfl

omit [Scalar α] in
theorem rename_addConstraints (m : Master α) (cs : List (LinearConstraint α)) :
    (m.addConstraints cs).rename ρ
      = (m.rename ρ).addConstraints (cs.map (LinearConstraint.rename ρ)) := by
  simp [rename, addConstraints]

/-- A renamed column of a problem is given the value of the column. -/
theorem assign_rename {cols : List Column} {c : Column} (h : c ∈ cols) (x : Option (List Rat))
    (v v' : Valuation α) : assign (cols.map ρ) x v' (ρ c) = assign cols x v c := by
  have hfind : (cols.map ρ).findIdx? (· == ρ c) = cols.findIdx? (· == c) := by
    rw [List.findIdx?_map]
    congr 1
    funext d
    simp [ρ.injective.eq_iff]
  unfold assign
  rw [hfind]
  cases hc : cols.findIdx? (· == c) with
  | some i => rfl
  | none =>
    rw [List.findIdx?_eq_none_iff] at hc
    simpa using hc c h

/-- A renamed master is solved alike: with the same fault, or with the same outcome and solution. -/
theorem solve_rename (m : Master α) (v v' : Valuation α) (s : Solver α) :
    (∃ e, m.solve v s = .error e ∧ (m.rename ρ).solve v' s = .error e)
      ∨ ∃ m₁ x, m.solve v s = .ok (m₁, assign m.columns x v)
        ∧ (m.rename ρ).solve v' s = .ok (m₁.rename ρ, assign (m.columns.map ρ) x v') := by
  unfold solve
  rw [toProblem_rename, columns_rename]
  cases m.toProblem with
  | error e => exact .inl ⟨e, rfl, rfl⟩
  | ok p =>
    show (∃ e, (s p >>= _) = _ ∧ (s p >>= _) = _) ∨ ∃ m₁ x, (s p >>= _) = _ ∧ (s p >>= _) = _
    cases s p with
    | error e => exact .inl ⟨e, rfl, rfl⟩
    | ok outcome =>
      cases outcome with
      | infeasible | unbounded => exact .inr ⟨_, none, rfl, rfl⟩
      | optimal value x =>
        have hconstant : (m.rename ρ).objective.expr.form.constant
            = m.objective.expr.form.constant := by
          rw [show (m.rename ρ).objective.expr.form = m.objective.expr.form.rename ρ from
            Affine.form_rename ρ _]
          rfl
        show (∃ e, (rational _ >>= _) = _ ∧ (rational _ >>= _) = _)
          ∨ ∃ m₁ x, (rational _ >>= _) = _ ∧ (rational _ >>= _) = _
        rw [hconstant]
        cases rational m.objective.expr.form.constant with
        | error e => exact .inl ⟨e, rfl, rfl⟩
        | ok constant => exact .inr ⟨_, some x, rfl, rfl⟩

end Master

end RobustOpt
