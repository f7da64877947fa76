import RobustOpt.Master
import RobustOpt.Proofs.Action
import RobustOpt.Proofs.Affine

/-!
# What a master asks of a point

A point satisfies a master if its constraints hold there and the columns that occur have values of
the required kind. These are the feasible points of the linear problem of the master, so a solver
that answers problems correctly answers masters correctly.

## Main definitions

* `LinearProblem.Outcome.Correct`, `Solver.Exact`, `Solver.Feasible`: what is asked of a solver.
* `Master.Satisfied`: the points a master admits.
* `Direction.Prefers`: which of two objective values is at least as good.

## Main statements

* `Master.toProblem_spec`: the points of the problem of a master.
* `Master.solve_optimal`, `Master.solve_infeasible`, `Master.solve_unbounded`: what a solve tells.
-/

namespace RobustOpt

/-! ## Solvers -/

/-- An optimum is a best feasible point with its cost, an infeasible problem has no feasible point,
and the cost of an unbounded one is bounded by no number. -/
def LinearProblem.Outcome.Correct (p : LinearProblem) : LinearProblem.Outcome → Prop
  | .optimal value x => p.Feasible x ∧ value = LinearProblem.inner p.cost x
      ∧ ∀ y, p.Feasible y → value ≤ LinearProblem.inner p.cost y
  | .infeasible => ∀ y, ¬ p.Feasible y
  | .unbounded => ∀ b : ℚ, ∃ y, p.Feasible y ∧ LinearProblem.inner p.cost y < b

/-- Every answer of the solver is correct; it may fail on any problem. -/
def Solver.Exact {α : Type} (s : Solver α) : Prop :=
  ∀ p o, s p = .ok o → o.Correct p

/-- The optima of the solver are feasible, if not best. -/
def Solver.Feasible {α : Type} (s : Solver α) : Prop :=
  ∀ p v x, s p = .ok (.optimal v x) → p.Feasible x

theorem Solver.Exact.feasible {α : Type} {s : Solver α} (h : s.Exact) : s.Feasible :=
  fun _ _ _ hs => (h _ _ hs).1

/-- A solver that knows the outcomes of the problems in a table only. -/
def Solver.ofTable {α : Type} (table : List (LinearProblem × LinearProblem.Outcome)) : Solver α :=
  fun p => match table.find? fun e => e.1 = p with
    | some e => .ok e.2
    | none => .error .badValue

theorem Solver.exact_ofTable {α : Type} {table : List (LinearProblem × LinearProblem.Outcome)}
    (h : ∀ e ∈ table, e.2.Correct e.1) : (ofTable table : Solver α).Exact := by
  intro p o ho
  unfold ofTable at ho
  split at ho
  · rename_i e he
    obtain rfl := Except.ok.inj ho
    obtain rfl : e.1 = p := by simpa using List.find?_some he
    exact h e (List.mem_of_find?_eq_some he)
  · cases ho

/-! ## Points -/

/-- Whether a column may take a value. -/
def Column.Admits (c : Column) (q : ℚ) : Prop :=
  LinearProblem.Unknown.Admits ⟨c.nonneg, c.integer⟩ q

theorem Column.admits_zero (c : Column) : c.Admits 0 := ⟨fun _ => le_rfl, fun _ => rfl⟩

/-- The constraints hold at the point and the columns that occur admit their values. -/
def Master.Satisfied (m : Master Extended) (x : Point) : Prop :=
  (∀ c ∈ m.constraints, c.Holds x.exact) ∧ ∀ c ∈ m.columns, c.Admits (x c)

/-- The value of an objective at a point. -/
def Objective.valueAt (o : Objective Extended) (x : Point) : Extended := o.expr.eval x.exact

/-- The cost of an objective that is to be minimized, up to its constant. -/
def Objective.costAt (o : Objective Extended) (x : Point) : ℚ :=
  o.direction.factor * LinearForm.termsAt x o.expr.form.terms

/-- Whether the first of two objective values is at least as good as the second. -/
def Direction.Prefers : Direction → Extended → Extended → Prop
  | .minimize, a, b => Scalar.le a b = true
  | .maximize, a, b => Scalar.le b a = true

theorem Objective.prefers_iff {o : Objective Extended} (h : o.expr.form.Finite) (x y : Point) :
    o.direction.Prefers (o.valueAt x) (o.valueAt y) ↔ o.costAt x ≤ o.costAt y := by
  simp only [Objective.valueAt, Affine.eval_eq_valueAt h, LinearForm.valueAt, Objective.costAt]
  cases o.direction <;> simp [Direction.Prefers, Direction.factor]

theorem Objective.costAt_congr {o : Objective Extended} {x y : Point}
    (h : ∀ c ∈ o.expr.form.columns, x c = y c) : o.costAt x = o.costAt y := by
  unfold costAt LinearForm.termsAt
  congr 2
  exact List.map_congr_left fun t ht => by rw [h t.1 (List.mem_map_of_mem ht)]

/-- The point of current values; columns without a value are at zero. -/
def Valuation.point (v : Valuation Extended) : Point := fun c => ((v c).getD 0).rat

/-- All current values are finite. -/
def Valuation.Finite (v : Valuation Extended) : Prop :=
  ∀ c x, v c = some x → Scalar.isFinite x = true

theorem Valuation.getD_eq {v : Valuation Extended} (h : v.Finite) (c : Column) :
    (v c).getD 0 = .finite (v.point c) := by
  unfold Valuation.point
  cases hv : v c with
  | none => rfl
  | some x => exact (Extended.finite_rat (h c x hv)).symm

/-! ## Lists without duplicates -/

theorem nodup_eraseDups {β : Type} [BEq β] [LawfulBEq β] (l : List β) : l.eraseDups.Nodup := by
  match l with
  | [] => simp
  | b :: l =>
    rw [List.eraseDups_cons, List.nodup_cons]
    refine ⟨by simp [List.mem_eraseDups], ?_⟩
    exact nodup_eraseDups _
termination_by l.length
decreasing_by exact Nat.lt_succ_of_le (List.length_filter_le _ _)

namespace Master

theorem nodup_columns (m : Master Extended) : m.columns.Nodup :=
  (Column.inOrder_perm _ _).nodup_iff.mpr (nodup_eraseDups _)

theorem mem_columns {m : Master Extended} {c : Column} :
    c ∈ m.columns ↔ c ∈ m.objective.expr.form.columns ∨ ∃ k ∈ m.constraints, c ∈ k.columns := by
  simp [columns, (Column.inOrder_perm _ _).mem_iff, List.mem_eraseDups]

/-! ## The linear problem -/

theorem rational_eq_ok {x : Extended} {q : ℚ} :
    rational x = .ok q ↔ Scalar.isFinite x = true ∧ q = x.rat := by
  cases x <;> simp [rational, Scalar.toRat?, Extended.toRat?, Scalar.isFinite, eq_comm]

theorem inner_eq_sum (xs ys : List ℚ) :
    LinearProblem.inner xs ys = (List.zipWith (· * ·) xs ys).sum := by
  rw [LinearProblem.inner, List.sum_eq_foldl]

theorem inner_map_mul (k : ℚ) (xs ys : List ℚ) :
    LinearProblem.inner (xs.map (k * ·)) ys = k * LinearProblem.inner xs ys := by
  simp only [inner_eq_sum]
  induction xs generalizing ys with
  | nil => simp
  | cons a xs ih =>
    cases ys with
    | nil => simp
    | cons b ys =>
      rw [List.map_cons, List.zipWith_cons_cons, List.zipWith_cons_cons, List.sum_cons,
        List.sum_cons, ih]
      ring

/-- The coefficients of one column add up, column by column, to the value of all terms. The
induction is on the terms; each contributes in its own column only. -/
theorem sum_columns {cols : List Column} (hn : cols.Nodup) {ts : List (Column × ℚ)}
    (hsub : ∀ t ∈ ts, t.1 ∈ cols) (x : Point) :
    (cols.map fun c => ((ts.filter fun t => t.1 == c).map Prod.snd).sum * x c).sum
      = (ts.map fun t => t.2 * x t.1).sum := by
  induction ts with
  | nil => simp
  | cons t ts ih =>
    have hsplit : ∀ c, (((t :: ts).filter fun t => t.1 == c).map Prod.snd).sum * x c
        = (if t.1 = c then t.2 * x c else 0)
          + ((ts.filter fun t => t.1 == c).map Prod.snd).sum * x c := by
      intro c
      by_cases h : t.1 = c
      · simp [h, add_mul]
      · simp [h]
    have hone : (cols.map fun c => if t.1 = c then t.2 * x c else 0).sum = t.2 * x t.1 := by
      rw [← List.sum_toFinset _ hn, Finset.sum_ite_eq,
        if_pos (List.mem_toFinset.mpr (hsub t (by simp)))]
    simp only [hsplit]
    rw [List.sum_map_add, hone, ih fun u hu => hsub u (by simp [hu])]
    simp

/-- The coefficients of a form along distinct columns that cover it. -/
theorem coefficients_spec {cols : List Column} {f : LinearForm Extended} {cs : List ℚ}
    (h : coefficients cols f = .ok cs) (hn : cols.Nodup) (hsub : ∀ c ∈ f.columns, c ∈ cols) :
    (∀ t ∈ f.terms, Scalar.isFinite t.2 = true)
      ∧ ∀ x : Point, LinearProblem.inner cs (cols.map x) = LinearForm.termsAt x f.terms := by
  obtain ⟨terms, hterms, hcs⟩ := bind_eq_ok.mp h
  obtain ⟨hfin, rfl⟩ := (mapM_eq_ok_map (P := fun t : Column × Extended =>
    Scalar.isFinite t.2 = true) (g := fun t => (t.1, t.2.rat)) (by
      intro t u
      simp only [bind_eq_ok, rational_eq_ok, pure_eq_ok]
      constructor
      · rintro ⟨q, ⟨hq, rfl⟩, rfl⟩
        exact ⟨hq, rfl⟩
      · rintro ⟨hq, rfl⟩
        exact ⟨_, ⟨hq, rfl⟩, rfl⟩)).mp hterms
  obtain rfl := pure_eq_ok.mp hcs
  refine ⟨hfin, fun x => ?_⟩
  rw [inner_eq_sum, List.zipWith_map, List.zipWith_self]
  simp only [← List.foldl_map (f := Prod.snd) (g := fun q r : ℚ => q + r), ← List.sum_eq_foldl]
  rw [sum_columns hn (List.forall_mem_map.mpr fun t ht => hsub _ (List.mem_map_of_mem ht))]
  simp [LinearForm.termsAt, List.map_map, Function.comp_def]

/-- A row of the problem says what the form it comes from does. -/
theorem problemRow_spec {cols : List Column} {relation : Relation} {f : LinearForm Extended}
    {r : LinearProblem.Row} (h : problemRow cols relation f = .ok r) (hn : cols.Nodup)
    (hsub : ∀ c ∈ f.columns, c ∈ cols) :
    f.Finite ∧ ∀ x : Point, r.Holds (cols.map x) ↔ LinearConstraint.RowHolds relation f x := by
  obtain ⟨cs, hcs, h⟩ := bind_eq_ok.mp h
  obtain ⟨q, hq, h⟩ := bind_eq_ok.mp h
  obtain rfl := pure_eq_ok.mp h
  obtain ⟨hc, rfl⟩ := rational_eq_ok.mp hq
  obtain ⟨ht, hval⟩ := coefficients_spec hcs hn hsub
  refine ⟨⟨hc, ht⟩, fun x => ?_⟩
  cases relation with
  | atMost =>
    show LinearProblem.inner cs (cols.map x) ≤ _ ↔ f.constant.rat + _ ≤ 0
    rw [hval, le_neg_iff_add_nonpos_left]
  | equal =>
    show LinearProblem.inner cs (cols.map x) = _ ↔ f.constant.rat + _ = 0
    rw [hval, eq_neg_iff_add_eq_zero, add_comm]

/-- The rows of a constraint hold together where the constraint does. -/
theorem problemRows_spec {cols : List Column} {c : LinearConstraint Extended}
    {rs : List LinearProblem.Row} (h : problemRows cols c = .ok rs) (hn : cols.Nodup)
    (hsub : ∀ d ∈ c.columns, d ∈ cols) (x : Point) :
    (∀ r ∈ rs, r.Holds (cols.map x)) ↔ c.Holds x.exact := by
  have hcols : ∀ f ∈ c.rows, ∀ d ∈ f.columns, d ∈ cols := fun f hf d hd =>
    hsub d (List.mem_flatMap.mpr ⟨f, hf, hd⟩)
  have hrows := (List.forall₂_and_left _ _).mpr ⟨hcols, mapM_eq_ok.mp h⟩
  have hfin : ∀ f ∈ c.rows, f.Finite := by
    intro f hf
    obtain ⟨r, -, hr⟩ := exists_of_mem_mapM h hf
    exact (problemRow_spec hr hn (hcols f hf)).1
  rw [LinearConstraint.holds_iff_rows hfin]
  exact (forall_mem_iff_of_forall₂ hrows fun f r hr =>
    ((problemRow_spec hr.2 hn hr.1).2 x).symm).symm

/-- The points of the problem of a master are those it admits, with their costs. -/
theorem toProblem_spec {m : Master Extended} {p : LinearProblem} (h : m.toProblem = .ok p) :
    p.unknowns.length = m.columns.length
      ∧ (∀ t ∈ m.objective.expr.form.terms, Scalar.isFinite t.2 = true)
      ∧ ∀ x : Point, (p.Feasible (m.columns.map x) ↔ m.Satisfied x)
        ∧ LinearProblem.inner p.cost (m.columns.map x) = m.objective.costAt x := by
  obtain ⟨cost, hcost, h⟩ := bind_eq_ok.mp h
  obtain ⟨rows, hrows, h⟩ := bind_eq_ok.mp h
  obtain rfl := pure_eq_ok.mp h
  have hn := m.nodup_columns
  obtain ⟨hfin, hval⟩ := coefficients_spec hcost hn fun c hc => mem_columns.mpr (.inl hc)
  refine ⟨by simp, hfin, fun x => ⟨?_, ?_⟩⟩
  · have hcs : ∀ c ∈ m.constraints, ∀ d ∈ c.columns, d ∈ m.columns := fun c hc d hd =>
      mem_columns.mpr (.inr ⟨c, hc, hd⟩)
    have hholds := forall_mem_iff_of_forall₂
      ((List.forall₂_and_left _ _).mpr ⟨hcs, mapM_eq_ok.mp hrows⟩)
      fun c rs hr => (problemRows_spec hr.2 hn hr.1 x).symm
    have hadmits : (∀ u ∈ (m.columns.map fun c => LinearProblem.Unknown.mk c.nonneg c.integer).zip
        (m.columns.map x), u.1.Admits u.2) ↔ ∀ c ∈ m.columns, c.Admits (x c) := by
      rw [List.zip_map', List.forall_mem_map]
      rfl
    simp only [LinearProblem.Feasible, Satisfied, List.length_map, true_and, List.mem_flatten,
      forall_exists_index, and_imp, hadmits, hholds]
    refine and_congr ⟨fun h rs hrs r hr => h r rs hrs hr, fun h r rs hrs hr => h rs hrs r hr⟩
      Iff.rfl
  · show LinearProblem.inner (cost.map (m.objective.direction.factor * ·)) _ = _
    rw [inner_map_mul, hval]
    rfl

/-! ## Solving -/

theorem assign_of_notMem {α : Type} [Scalar α] {cols : List Column} {c : Column} (h : c ∉ cols)
    (xs : Option (List ℚ)) (v : Valuation α) : assign cols xs v c = v c := by
  have : cols.findIdx? (· == c) = none := by
    rw [List.findIdx?_eq_none_iff]
    intro d hd
    simpa using fun hdc : d = c => h (hdc ▸ hd)
  simp [assign, this]

theorem assign_getElem {cols : List Column} (hn : cols.Nodup) {i : ℕ} (hi : i < cols.length)
    (xs : List ℚ) (v : Valuation Extended) :
    assign cols (some xs) v cols[i] = some (.finite (xs.getD i 0)) := by
  have : cols.findIdx? (· == cols[i]) = some i := by
    rw [List.findIdx?_eq_some_iff_getElem]
    refine ⟨hi, by simp, fun j hj => ?_⟩
    simpa using fun h => hj.ne ((hn.getElem_inj_iff).mp h)
  simp only [assign, this]
  rfl

/-- The new values of the columns of a problem, as a list, are the solution. -/
theorem map_point_assign {cols : List Column} (hn : cols.Nodup) {xs : List ℚ}
    (hl : xs.length = cols.length) (v : Valuation Extended) :
    cols.map (assign cols (some xs) v).point = xs := by
  refine List.ext_getElem (by simp [hl]) fun i hi hx => ?_
  rw [List.getElem_map, Valuation.point, assign_getElem hn (by simpa using hi)]
  simp [hx]

/-- The three ways in which a solve succeeds. -/
theorem solve_eq_ok {m m' : Master Extended} {v v' : Valuation Extended} {s : Solver Extended} :
    m.solve v s = .ok (m', v') ↔ ∃ p, m.toProblem = .ok p ∧
      ((∃ value x, s p = .ok (.optimal value x)
          ∧ Scalar.isFinite m.objective.expr.form.constant = true
          ∧ m' = { m with outcome := some (.optimal, .finite (m.objective.direction.factor * value
              + m.objective.expr.form.constant.rat)) }
          ∧ v' = assign m.columns (some x) v)
        ∨ (s p = .ok .infeasible
          ∧ m' = { m with outcome := some (.infeasible, extreme m.objective.direction true) }
          ∧ v' = assign m.columns none v)
        ∨ (s p = .ok .unbounded
          ∧ m' = { m with outcome := some (.unbounded, extreme m.objective.direction false) }
          ∧ v' = assign m.columns none v)) := by
  rw [solve, bind_eq_ok]
  refine exists_congr fun p => and_congr_right fun _ => ?_
  rw [bind_eq_ok]
  constructor
  · rintro ⟨o, ho, h⟩
    cases o with
    | optimal value x =>
      obtain ⟨q, hq, h⟩ := bind_eq_ok.mp h
      obtain ⟨hfin, rfl⟩ := rational_eq_ok.mp hq
      obtain ⟨rfl, rfl⟩ := Prod.mk.inj (pure_eq_ok.mp h)
      exact .inl ⟨value, x, ho, hfin, rfl, rfl⟩
    | infeasible =>
      obtain ⟨rfl, rfl⟩ := Prod.mk.inj (pure_eq_ok.mp h)
      exact .inr (.inl ⟨ho, rfl, rfl⟩)
    | unbounded =>
      obtain ⟨rfl, rfl⟩ := Prod.mk.inj (pure_eq_ok.mp h)
      exact .inr (.inr ⟨ho, rfl, rfl⟩)
  · rintro (⟨value, x, ho, hfin, rfl, rfl⟩ | ⟨ho, rfl, rfl⟩ | ⟨ho, rfl, rfl⟩)
    · refine ⟨_, ho, bind_eq_ok.mpr ⟨_, rational_eq_ok.mpr ⟨hfin, rfl⟩, rfl⟩⟩
    · exact ⟨_, ho, rfl⟩
    · exact ⟨_, ho, rfl⟩

variable {m m' : Master Extended} {v v' : Valuation Extended} {s : Solver Extended}

/-- Solving changes the outcome of a master only. -/
theorem solve_frame (h : m.solve v s = .ok (m', v')) :
    m'.objective = m.objective ∧ m'.constraints = m.constraints
      ∧ ∀ c ∉ m.columns, v' c = v c := by
  obtain ⟨p, -, ⟨value, x, -, -, rfl, rfl⟩ | ⟨-, rfl, rfl⟩ | ⟨-, rfl, rfl⟩⟩ := solve_eq_ok.mp h <;>
    exact ⟨rfl, rfl, fun c hc => assign_of_notMem hc _ _⟩

/-- The point found by a solver with feasible optima satisfies the master, and has a value. -/
theorem solve_feasible (hs : s.Feasible) (h : m.solve v s = .ok (m', v'))
    (ho : m'.status? = some .optimal) :
    m.Satisfied v'.point ∧ ∀ c ∈ m.columns, ∃ q, v' c = some (.finite q) := by
  obtain ⟨p, hp, ⟨value, x, hx, -, rfl, rfl⟩ | ⟨-, rfl, -⟩ | ⟨-, rfl, -⟩⟩ := solve_eq_ok.mp h
  · obtain ⟨hlen, -, hspec⟩ := toProblem_spec hp
    have hfeas := hs p value x hx
    have hl : x.length = m.columns.length := hfeas.1.trans hlen
    refine ⟨?_, fun c hc => ?_⟩
    · rw [← (hspec _).1, map_point_assign m.nodup_columns hl]
      exact hfeas
    · obtain ⟨i, hi, rfl⟩ := List.getElem_of_mem hc
      exact ⟨_, assign_getElem m.nodup_columns hi x v⟩
  · simp [status?] at ho
  · simp [status?] at ho

/-- The value found by an exact solver is that of the point found, and best. -/
theorem solve_optimal (hs : s.Exact) (h : m.solve v s = .ok (m', v'))
    (ho : m'.status? = some .optimal) :
    m.objective.expr.form.Finite
      ∧ m'.value? = some (m.objective.valueAt v'.point)
      ∧ ∀ y, m.Satisfied y → m.objective.costAt v'.point ≤ m.objective.costAt y := by
  obtain ⟨p, hp, ⟨value, x, hx, hc, rfl, rfl⟩ | ⟨-, rfl, -⟩ | ⟨-, rfl, -⟩⟩ := solve_eq_ok.mp h
  · obtain ⟨hlen, ht, hspec⟩ := toProblem_spec hp
    obtain ⟨hfeas, hval, hbest⟩ := hs p _ hx
    have hmap := map_point_assign m.nodup_columns (hfeas.1.trans hlen) v
    have hcost : value = m.objective.costAt (assign m.columns (some x) v).point := by
      rw [hval, ← (hspec _).2, hmap]
    have hfin : m.objective.expr.form.Finite := ⟨hc, ht⟩
    refine ⟨hfin, ?_, fun y hy => ?_⟩
    · rw [value?, Option.map_some, Objective.valueAt, Affine.eval_eq_valueAt hfin, hcost,
        Objective.costAt, LinearForm.valueAt]
      cases m.objective.direction <;> simp [Direction.factor, add_comm]
    · rw [← hcost, ← (hspec y).2]
      exact hbest _ ((hspec y).1.mpr hy)
  · simp [status?] at ho
  · simp [status?] at ho

/-- A master that an exact solver finds infeasible admits no point. -/
theorem solve_infeasible (hs : s.Exact) (h : m.solve v s = .ok (m', v'))
    (ho : m'.status? = some .infeasible) (y : Point) : ¬ m.Satisfied y := by
  obtain ⟨p, hp, ⟨value, x, -, -, rfl, -⟩ | ⟨hx, rfl, -⟩ | ⟨-, rfl, -⟩⟩ := solve_eq_ok.mp h
  · simp [status?] at ho
  · rw [← ((toProblem_spec hp).2.2 y).1]
    exact hs p _ hx _
  · simp [status?] at ho

/-- A master that an exact solver finds unbounded admits points of every cost. -/
theorem solve_unbounded (hs : s.Exact) (h : m.solve v s = .ok (m', v'))
    (ho : m'.status? = some .unbounded) (b : ℚ) :
    ∃ y, m.Satisfied y ∧ m.objective.costAt y < b := by
  obtain ⟨p, hp, ⟨value, x, -, -, rfl, -⟩ | ⟨-, rfl, -⟩ | ⟨hx, rfl, -⟩⟩ := solve_eq_ok.mp h
  · simp [status?] at ho
  · simp [status?] at ho
  · obtain ⟨hlen, -, hspec⟩ := toProblem_spec hp
    obtain ⟨x, hfeas, hlt⟩ := hs p _ hx b
    have hmap := map_point_assign m.nodup_columns (hfeas.1.trans hlen) fun _ => none
    refine ⟨(assign m.columns (some x) fun _ => none).point, ?_, ?_⟩
    · rw [← (hspec _).1, hmap]
      exact hfeas
    · rw [← (hspec _).2, hmap]
      exact hlt

/-- A solve ends with one of three statuses. -/
theorem status_of_solve (h : m.solve v s = .ok (m', v')) :
    m'.status? = some .optimal ∨ m'.status? = some .infeasible
      ∨ m'.status? = some .unbounded := by
  obtain ⟨p, -, ⟨value, x, -, -, rfl, -⟩ | ⟨-, rfl, -⟩ | ⟨-, rfl, -⟩⟩ := solve_eq_ok.mp h <;>
    simp [status?]

/-- A point satisfies as many masters as agree with it on their columns. -/
theorem satisfied_congr {x y : Point} (h : ∀ c ∈ m.columns, x c = y c) :
    m.Satisfied x ↔ m.Satisfied y := by
  refine and_congr (forall₂_congr fun c hc => LinearConstraint.holds_congr ?_)
    (forall₂_congr fun c hc => by rw [h c hc])
  rw [LinearConstraint.within_iff_columns]
  intro d hd
  simp [h d (mem_columns.mpr (.inr ⟨c, hc, hd⟩))]

/-- What a master asks of a point does not depend on its outcome. -/
theorem satisfied_iff_of_eq (hobj : m'.objective = m.objective)
    (hcons : m'.constraints = m.constraints) {x : Point} : m'.Satisfied x ↔ m.Satisfied x := by
  unfold Satisfied columns
  rw [hobj, hcons]

@[simp] theorem addConstraints_nil : m.addConstraints [] = m := by simp [addConstraints]

@[simp] theorem addConstraints_addConstraints (cs ds : List (LinearConstraint Extended)) :
    (m.addConstraints cs).addConstraints ds = m.addConstraints (cs ++ ds) := by
  simp [addConstraints]

/-- What a master with more constraints asks in addition. -/
theorem satisfied_addConstraints {cs : List (LinearConstraint Extended)} {x : Point} :
    (m.addConstraints cs).Satisfied x
      ↔ m.Satisfied x ∧ ∀ c ∈ cs, c.Holds x.exact ∧ ∀ d ∈ c.columns, d.Admits (x d) := by
  have hcols : ∀ d, d ∈ (m.addConstraints cs).columns
      ↔ d ∈ m.columns ∨ ∃ k ∈ cs, d ∈ k.columns := by
    intro d
    simp only [mem_columns, constraints_addConstraints, List.mem_append, or_and_right, exists_or]
    exact or_assoc.symm
  simp only [Satisfied, constraints_addConstraints, hcols, List.mem_append]
  constructor
  · rintro ⟨h, ha⟩
    exact ⟨⟨fun c hc => h c (.inl hc), fun d hd => ha d (.inl hd)⟩,
      fun c hc => ⟨h c (.inr hc), fun d hd => ha d (.inr ⟨c, hc, hd⟩)⟩⟩
  · rintro ⟨⟨h, ha⟩, hcs⟩
    refine ⟨fun c hc => hc.elim (h c) fun hc => (hcs c hc).1, fun d hd => hd.elim (ha d) ?_⟩
    rintro ⟨k, hk, hd⟩
    exact (hcs k hk).2 d hd

end Master

end RobustOpt
