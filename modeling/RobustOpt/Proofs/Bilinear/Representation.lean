import Mathlib.Algebra.Order.BigOperators.Group.Finset
import Mathlib.Algebra.Order.Ring.Abs
import RobustOpt.Proofs.Bilinear
import RobustOpt.Proofs.Collection

/-!
# The matrix of an expression

The coefficient expressions of a decision variable are collected one after the other in a single
accumulator, which drops negligible sums and leaves a trace where contributions cancel, and what is
collected is summed by the matrix. Every entry is the exact coefficient up to what a collection can
drop and leave behind, and the row of the constants is exact.

## Main definitions

* `Mixed.coefficients`: the coefficient expressions with their columns.
* `Mixed.exact`: the exact entries.
* `Mixed.slack`: how far an entry may be away from the exact one.

## Main statements

* `SparseMatrix.coef_ofEntries`: the entries of a matrix are sums.
* `Uncertain.abs_collected_sub_le`: what a collection of like terms can lose.
* `Mixed.coefficientMatrix_represents`: the form has the values of the expression up to the slack.
-/

namespace RobustOpt

open Finset Bilinear

/-! ## Summed entries -/

namespace SparseMatrix

variable {c : ℕ} {x : Extended} {row : List (ℕ × Extended)}

theorem finite_insert : (∀ t ∈ insert c x row, Scalar.isFinite t.2 = true)
    ↔ Scalar.isFinite x = true ∧ ∀ t ∈ row, Scalar.isFinite t.2 = true := by
  induction row with
  | nil => simp [insert]
  | cons t row ih =>
    obtain ⟨d, y⟩ := t
    unfold insert
    split_ifs
    · simp
    · simp only [List.forall_mem_cons, Extended.isFinite_add]
      tauto
    · simp only [List.forall_mem_cons, ih]
      tauto

/-- Inserting an entry adds it to the terms of a row. -/
theorem sum_insert (hx : Scalar.isFinite x = true) (hrow : ∀ t ∈ row, Scalar.isFinite t.2 = true)
    (f : ℕ → ℚ) : ((insert c x row).map fun t => t.2.rat * f t.1).sum
      = (row.map fun t => t.2.rat * f t.1).sum + x.rat * f c := by
  induction row with
  | nil => simp [insert]
  | cons t row ih =>
    obtain ⟨d, y⟩ := t
    obtain ⟨hy, hrow⟩ := List.forall_mem_cons.mp hrow
    unfold insert
    split_ifs with hlt heq
    · simp [add_comm]
    · subst heq
      simp only [List.map_cons, List.sum_cons, Extended.rat_add hy hx]
      ring
    · simp only [List.map_cons, List.sum_cons, ih hrow]
      ring

theorem foldl_insert_spec {entries : List (ℕ × ℕ × Extended)}
    (he : ∀ e ∈ entries, Scalar.isFinite e.2.2 = true)
    (hrow : ∀ t ∈ row, Scalar.isFinite t.2 = true) :
    (∀ t ∈ entries.foldl (fun row e => insert e.2.1 e.2.2 row) row, Scalar.isFinite t.2 = true)
      ∧ ∀ f : ℕ → ℚ, ((entries.foldl (fun row e => insert e.2.1 e.2.2 row) row).map
          fun t => t.2.rat * f t.1).sum
        = (row.map fun t => t.2.rat * f t.1).sum
          + (entries.map fun e => e.2.2.rat * f e.2.1).sum := by
  induction entries generalizing row with
  | nil => exact ⟨hrow, by simp⟩
  | cons e entries ih =>
    obtain ⟨hx, he⟩ := List.forall_mem_cons.mp he
    obtain ⟨hfin, hsum⟩ := ih he (finite_insert.mpr ⟨hx, hrow⟩)
    refine ⟨hfin, fun f => ?_⟩
    rw [List.foldl_cons, hsum, sum_insert hx hrow, List.map_cons, List.sum_cons, add_assoc]

variable {height width : ℕ} {entries : List (ℕ × ℕ × Extended)}

/-- The matrix of finite entries within the width is canonical. -/
theorem canonical_ofEntries (hfin : ∀ e ∈ entries, Scalar.isFinite e.2.2 = true)
    (hcol : ∀ e ∈ entries, e.2.1 < width) : (ofEntries height width entries).Canonical where
  ordered row hrow := (ordered_ofEntries height hcol row hrow).1
  below row hrow := (ordered_ofEntries height hcol row hrow).2
  finite := by
    simp only [SparseMatrix.Finite, ofEntries, List.forall_mem_map]
    exact fun i _ => (foldl_insert_spec (fun e he => hfin e (List.mem_filter.mp he).1) (by simp)).1

/-- An entry is the sum of what was given for its place. -/
theorem coef_ofEntries (hfin : ∀ e ∈ entries, Scalar.isFinite e.2.2 = true)
    (hcol : ∀ e ∈ entries, e.2.1 < width) {i j : ℕ} (hi : i < height) (hj : j < width) :
    (ofEntries height width entries).coef i j
      = (entries.map fun e => if e.1 = i ∧ e.2.1 = j then e.2.2.rat else 0).sum := by
  let row := (entries.filter fun e => e.1 == i).foldl (fun row e => insert e.2.1 e.2.2 row) []
  have hrow : (ofEntries height width entries).rows.getD i [] = row := by
    simp [row, ofEntries, List.getD_eq_getElem?_getD, hi]
  obtain ⟨hordered, hbelow⟩ : Ordered row ∧ ∀ t ∈ row, t.1 < width :=
    ordered_ofEntries height hcol row (List.mem_map_of_mem (List.mem_range.mpr hi))
  have hfilter : ∀ e ∈ entries.filter fun e => e.1 == i, Scalar.isFinite e.2.2 = true :=
    fun e he => hfin e (List.mem_filter.mp he).1
  calc (ofEntries height width entries).coef i j
      = ∑ k ∈ range width, (entry row k).rat * if k = j then 1 else 0 := by
        rw [coef, hrow]
        simp [hj]
    _ = (row.map fun t => t.2.rat * if t.1 = j then 1 else 0).sum :=
        (sum_entries hordered hbelow _).symm
    _ = ((entries.filter fun e => e.1 == i).map fun e =>
          e.2.2.rat * if e.2.1 = j then 1 else 0).sum := by
        simpa using (foldl_insert_spec hfilter (List.forall_mem_nil _)).2 fun k =>
          if k = j then 1 else 0
    _ = ((entries.filter fun e => e.1 == i).map fun e =>
          if e.1 = i ∧ e.2.1 = j then e.2.2.rat else 0).sum := by
        congr 1
        refine List.map_congr_left fun e he => ?_
        have hei : e.1 = i := by simpa using (List.mem_filter.mp he).2
        simp [hei]
    _ = (entries.map fun e => if e.1 = i ∧ e.2.1 = j then e.2.2.rat else 0).sum := by
        refine sum_map_filter _ _ _ fun e _ he => if_neg ?_
        rintro ⟨rfl, -⟩
        simp at he

end SparseMatrix

/-! ## Collected coefficients -/

namespace Accumulator

/-- A slot holds the sum of the contributions and a trace of each cancellation, of which there are
not more than contributions. -/
theorem sums_eq {ts : List (ℕ × Extended)} (hts : ∀ t ∈ ts, Scalar.isFinite t.2 = true) (i : ℕ) :
    ∃ k ≤ (ts.filter fun t => t.1 = i).length,
      sums ts i = .finite ((ts.map fun t => if t.1 = i then t.2.rat else 0).sum + k * trace) :=
  ⟨_, cancellations_le ts i, sums_eq_total hts i⟩

end Accumulator

namespace Uncertain

variable (e : Uncertain Extended) {n : ℕ}

/-- The number of stored terms of the parameter at a position. -/
def occurrences (i : ℕ) : ℕ := (e.terms.filter fun t => t.1.index = i).length

/-- The collected coefficient of the parameter at a position, zero if it is left out. -/
def collected (i : ℕ) : ℚ :=
  ((Accumulator.collected e.contributions).map fun t => if t.1 = i then t.2.rat else 0).sum

variable {e}

/-- A coefficient is collected if its sum is not negligible. -/
theorem collected_eq (i : ℕ) : e.collected i
    = if Scalar.le Scalar.zeroTol (Scalar.abs (Accumulator.sums e.contributions i)) = true
      then (Accumulator.sums e.contributions i).rat else 0 := by
  let kept := (Accumulator.touched e.contributions).filter fun k =>
    Scalar.le Scalar.zeroTol (Scalar.abs (Accumulator.sums e.contributions k))
  have hnodup : kept.Nodup := (Accumulator.nodup_touched _).filter _
  have hsum : e.collected i
      = (kept.map fun k => if k = i then (Accumulator.sums e.contributions k).rat else 0).sum := by
    simp [collected, Accumulator.collected, kept, Function.comp_def]
  rw [hsum]
  split_ifs with hle
  · have hne : Accumulator.sums e.contributions i ≠ 0 := by
      rintro hz
      rw [hz] at hle
      revert hle
      decide +kernel
    have hi : i ∈ kept := List.mem_filter.mpr ⟨(Accumulator.sums_ne_zero_iff _).mp hne, hle⟩
    exact sum_map_ite_of_nodup (fun k : ℕ => k) (fun k => (Accumulator.sums e.contributions k).rat)
      (by simpa using hnodup) hi
  · refine List.sum_eq_zero (List.forall_mem_map.mpr fun k hk => if_neg ?_)
    rintro rfl
    exact hle (List.mem_filter.mp hk).2

/-- The slot of a parameter holds its coefficient up to traces of cancellations. -/
theorem Finite.sums_eq (he : e.Finite) (i : ℕ) :
    ∃ k ≤ e.occurrences i, Accumulator.sums e.contributions i
      = .finite (e.coefficient i + k * Accumulator.trace) := by
  have hfin : ∀ t ∈ e.contributions, Scalar.isFinite t.2 = true :=
    List.forall_mem_map.mpr he.2
  obtain ⟨k, hk, h⟩ := Accumulator.sums_eq hfin i
  refine ⟨k, ?_, ?_⟩
  · simpa [contributions, occurrences, List.filter_map, Function.comp_def] using hk
  · simpa [contributions, coefficient, Function.comp_def] using h

/-- A collection loses less than the tolerance of a coefficient, and leaves a trace of each
cancellation at most. -/
theorem abs_collected_sub_le (he : e.Finite) (i : ℕ) :
    |e.collected i - e.coefficient i|
      ≤ Accumulator.tolerance + e.occurrences i * Accumulator.trace := by
  obtain ⟨k, hk, hsum⟩ := he.sums_eq i
  have htrace := Accumulator.trace_pos
  have hk : (k : ℚ) * Accumulator.trace ≤ e.occurrences i * Accumulator.trace := by gcongr
  have hpos : (0 : ℚ) ≤ k * Accumulator.trace := by positivity
  simp only [collected_eq, hsum, Accumulator.zeroTol_eq_tolerance, Extended.abs_finite,
    Extended.le_finite, Extended.rat_finite, decide_eq_true_eq]
  split_ifs with hle
  · rw [add_sub_cancel_left, abs_of_nonneg hpos]
    linarith [Accumulator.tolerance_pos]
  · obtain ⟨hlow, hhigh⟩ := abs_lt.mp (not_le.mp hle)
    rw [zero_sub, abs_neg, abs_le]
    constructor <;> linarith

/-- The entries of a coefficient expression in a column. -/
def entries (e : Uncertain Extended) (n column : ℕ) : List (ℕ × ℕ × Extended) :=
  ((Accumulator.collected e.contributions).map fun t => (t.1, column, t.2))
    ++ if Scalar.isZero e.constant then [] else [(n, column, e.constant)]

theorem isFinite_entries (he : e.Finite) (column : ℕ) :
    ∀ t ∈ e.entries n column, Scalar.isFinite t.2.2 = true := by
  simp only [entries, List.forall_mem_append, List.forall_mem_map]
  constructor
  · intro t ht
    obtain ⟨i, -, rfl⟩ := List.mem_map.mp ht
    obtain ⟨k, -, hsum⟩ := he.sums_eq i
    simp [hsum]
  · split_ifs <;> simp [he.1]

theorem column_of_mem_entries {column : ℕ} : ∀ t ∈ e.entries n column, t.2.1 = column := by
  simp only [entries, List.forall_mem_append, List.forall_mem_map]
  refine ⟨by simp, ?_⟩
  split_ifs <;> simp

/-- What the entries of a coefficient expression add to a place: the collected coefficient in the
row of a parameter, the constant in the last row. -/
theorem sum_entries (hlt : ∀ t ∈ e.terms, t.1.index < n) (column i j : ℕ) :
    ((e.entries n column).map fun t => if t.1 = i ∧ t.2.1 = j then t.2.2.rat else 0).sum
      = if column = j then if i = n then e.constant.rat else e.collected i else 0 := by
  have hterms : (((Accumulator.collected e.contributions).map fun t => (t.1, column, t.2)).map
      fun t => if t.1 = i ∧ t.2.1 = j then t.2.2.rat else 0).sum
        = if column = j then e.collected i else 0 := by
    split_ifs with hj <;> simp [hj, collected, Function.comp_def]
  have hconstant : ((if Scalar.isZero e.constant then [] else [(n, column, e.constant)]).map
      fun t : ℕ × ℕ × Extended => if t.1 = i ∧ t.2.1 = j then t.2.2.rat else 0).sum
        = if i = n ∧ column = j then e.constant.rat else 0 := by
    by_cases hz : Scalar.isZero e.constant = true
    · rw [if_pos hz]
      simp [Extended.isZero_iff.mp hz]
    · rw [if_neg hz]
      simp [eq_comm (a := n)]
  have hnone : i = n → e.collected i = 0 := by
    rintro rfl
    refine List.sum_eq_zero (List.forall_mem_map.mpr fun t ht => if_neg ?_)
    obtain ⟨k, hk, rfl⟩ := List.mem_map.mp ht
    have hcontrib : ∀ t ∈ e.contributions, t.1 < i := List.forall_mem_map.mpr hlt
    exact (Accumulator.lt_of_mem_touched _ hcontrib (List.mem_filter.mp hk).1).ne
  rw [entries, List.map_append, List.sum_append, hterms, hconstant]
  by_cases hj : column = j
  · by_cases hi : i = n
    · subst hi
      simp [hj, hnone]
    · simp [hj, hi]
  · simp [hj]

end Uncertain

/-! ## The entries of an expression -/

namespace Mixed

variable (e : Mixed Extended) {n m : ℕ}

/-- The coefficient expressions with their columns, the constant in the column after those of `m`
decision variables. -/
def coefficients (m : ℕ) : List (ℕ × Uncertain Extended) :=
  e.terms.map (fun t => (t.1.index, t.2)) ++ [(m, e.constant)]

/-- All symbols of the expression have a row or a column, for `n` parameters and `m` decision
variables. -/
structure Indexed (n m : ℕ) : Prop where
  decisions : ∀ t ∈ e.terms, t.1.index < m
  parameters : ∀ p ∈ e.coefficients m, ∀ t ∈ p.2.terms, t.1.index < n

/-- All parameters have a row, and all decision variables a column or the one after those of `m`
decision variables. -/
structure Within (n m : ℕ) : Prop where
  decisions : ∀ t ∈ e.terms, t.1.index ≤ m
  parameters : ∀ p ∈ e.coefficients m, ∀ t ∈ p.2.terms, t.1.index < n

variable {e}

theorem Indexed.within (he : e.Indexed n m) : e.Within n m :=
  ⟨fun t ht => (he.decisions t ht).le, he.parameters⟩

theorem mem_coefficients {t : Decision Extended × Uncertain Extended} (ht : t ∈ e.terms) :
    (t.1.index, t.2) ∈ e.coefficients m :=
  List.mem_append_left _ (List.mem_map_of_mem ht)

theorem constant_mem_coefficients : (m, e.constant) ∈ e.coefficients m := by
  simp [coefficients]

theorem yields_columnEntries {f : Uncertain Extended} (hf : ∀ t ∈ f.terms, t.1.index < n)
    (column : ℕ) :
    (columnEntries n column f).Yields (.empty n) (f.entries n column) (.empty n) := by
  have hcollect := f.yields_collectIn (.empty n) rfl hf
  rw [ite_self] at hcollect
  refine Action.yields_bind.mpr ⟨_, _, hcollect, Action.yields_pure.mpr ⟨?_, rfl⟩⟩
  unfold Uncertain.entries
  split_ifs <;> simp

/-- All coefficient expressions are collected in one accumulator, which is empty in between. The
decision variables need no column for this. -/
theorem yields_matrixEntries (h : ∀ p ∈ e.coefficients m, ∀ t ∈ p.2.terms, t.1.index < n) :
    (e.matrixEntries n m).Yields (.empty n)
      ((e.coefficients m).flatMap fun p => p.2.entries n p.1) (.empty n) := by
  have hterms : ∀ t ∈ e.terms, ∀ s ∈ t.2.terms, s.1.index < n := fun t ht =>
    h _ (mem_coefficients ht)
  have hconstant := h _ constant_mem_coefficients
  obtain ⟨r, acc, hy, rfl, rfl⟩ := Action.exists_yields_mapM
    (f := fun t : Decision Extended × Uncertain Extended => columnEntries n t.1.index t.2)
    (l := e.terms) (fun done out acc =>
      out = done.map (fun t => t.2.entries n t.1.index) ∧ acc = .empty n)
    ⟨rfl, rfl⟩ (by
      rintro done out t acc hinit ⟨rfl, rfl⟩
      exact ⟨_, _, yields_columnEntries (hterms t (hinit.subset (by simp))) _, by simp, rfl⟩)
  refine Action.yields_bind.mpr ⟨_, _, hy, Action.yields_bind.mpr
    ⟨_, _, yields_columnEntries hconstant m, Action.yields_pure.mpr ⟨?_, rfl⟩⟩⟩
  simp [coefficients, List.flatMap_def, Function.comp_def]

theorem column_le_of_mem (h : ∀ t ∈ e.terms, t.1.index ≤ m) {p : ℕ × Uncertain Extended}
    (hp : p ∈ e.coefficients m) : p.1 ≤ m := by
  rcases List.mem_append.mp hp with hp | hp
  · obtain ⟨t, ht, rfl⟩ := List.mem_map.mp hp
    exact h t ht
  · obtain rfl := List.mem_singleton.mp hp
    exact le_rfl

/-- The coefficient expressions that belong to a column. -/
def feeding (e : Mixed Extended) (m j : ℕ) : List (Uncertain Extended) :=
  ((e.coefficients m).filter fun p => p.1 = j).map Prod.snd

/-- The exact entry of an expression in a row and a column: the coefficient of a parameter, or the
constant in the last row. -/
def exact (e : Mixed Extended) (n m i j : ℕ) : ℚ :=
  ((e.feeding m j).map fun f => if i = n then f.constant.rat else f.coefficient i).sum

/-- How far an entry may be away from the exact one: the tolerance for each coefficient expression
of the column, and a trace for each stored term of the parameter in them. -/
def slack (e : Mixed Extended) (m i j : ℕ) : ℚ :=
  ((e.feeding m j).length : ℕ) * Accumulator.tolerance
    + (((e.feeding m j).map fun f => f.occurrences i).sum : ℕ) * Accumulator.trace

theorem sum_feeding (f : Uncertain Extended → ℚ) (j : ℕ) :
    ((e.feeding m j).map f).sum
      = ((e.coefficients m).map fun p => if p.1 = j then f p.2 else 0).sum := by
  rw [feeding, List.map_map]
  induction e.coefficients m with
  | nil => rfl
  | cons p l ih => by_cases hp : p.1 = j <;> simp [hp, ih]

theorem Finite.of_mem (hfin : e.Finite) {p : ℕ × Uncertain Extended} (hp : p ∈ e.coefficients m) :
    p.2.Finite := by
  rcases List.mem_append.mp hp with hp | hp
  · obtain ⟨t, ht, rfl⟩ := List.mem_map.mp hp
    exact hfin.2 t ht
  · obtain rfl := List.mem_singleton.mp hp
    exact hfin.1

/-- The entries of the coefficient expressions are finite and lie within the matrix. -/
theorem Within.forall_mem_entries (he : e.Within n m) (hfin : e.Finite) :
    ∀ t ∈ (e.coefficients m).flatMap fun p => p.2.entries n p.1,
      Scalar.isFinite t.2.2 = true ∧ t.2.1 < m + 1 := by
  intro t ht
  obtain ⟨p, hp, ht⟩ := List.mem_flatMap.mp ht
  refine ⟨Uncertain.isFinite_entries (hfin.of_mem hp) p.1 t ht, ?_⟩
  rw [Uncertain.column_of_mem_entries t ht]
  exact Nat.lt_succ_of_le (column_le_of_mem he.decisions hp)

theorem forall_mem_entries (hfin : e.Finite) (he : e.Indexed n m) :
    ∀ t ∈ (e.coefficients m).flatMap fun p => p.2.entries n p.1,
      Scalar.isFinite t.2.2 = true ∧ t.2.1 < m + 1 :=
  he.within.forall_mem_entries hfin

/-- The matrix of an expression whose parameters have a row is that of its entries, unless one of
them lies beyond the last column. -/
theorem coefficientMatrix_eq_ite (h : ∀ p ∈ e.coefficients m, ∀ t ∈ p.2.terms, t.1.index < n) :
    e.coefficientMatrix n m
      = if ((e.coefficients m).flatMap fun p => p.2.entries n p.1).all (·.2.1 ≤ m) = true then
          .ok (.ofEntries (n + 1) (m + 1) ((e.coefficients m).flatMap fun p => p.2.entries n p.1))
        else .error .badValue := by
  have hy := yields_matrixEntries h
  rw [Action.Yields] at hy
  rw [coefficientMatrix, hy]
  rfl

/-- The matrix of a finite expression whose symbols are indexed is that of its entries. -/
theorem coefficientMatrix_eq (hfin : e.Finite) (he : e.Indexed n m) : e.coefficientMatrix n m
    = .ok (.ofEntries (n + 1) (m + 1) ((e.coefficients m).flatMap fun p => p.2.entries n p.1)) := by
  rw [coefficientMatrix_eq_ite he.parameters, if_pos]
  exact List.all_eq_true.mpr fun t ht =>
    decide_eq_true (Nat.le_of_lt_succ (forall_mem_entries hfin he t ht).2)

/-- An entry of the matrix is the sum of what the coefficient expressions of its column have in its
row. -/
theorem Within.coef_eq (he : e.Within n m) (hfin : e.Finite) {i j : ℕ} (hi : i < n + 1)
    (hj : j < m + 1) :
    (SparseMatrix.ofEntries (n + 1) (m + 1)
        ((e.coefficients m).flatMap fun p => p.2.entries n p.1)).coef i j
      = ((e.feeding m j).map fun f => if i = n then f.constant.rat else f.collected i).sum := by
  rw [SparseMatrix.coef_ofEntries (fun t ht => (he.forall_mem_entries hfin t ht).1)
    (fun t ht => (he.forall_mem_entries hfin t ht).2) hi hj, sum_feeding, List.map_flatMap,
    List.flatMap_def, List.sum_flatten, List.map_map]
  congr 1
  exact List.map_congr_left fun p hp => Uncertain.sum_entries (he.parameters p hp) p.1 i j

theorem coef_eq (hfin : e.Finite) (he : e.Indexed n m) {i j : ℕ} (hi : i < n + 1) (hj : j < m + 1) :
    (SparseMatrix.ofEntries (n + 1) (m + 1)
        ((e.coefficients m).flatMap fun p => p.2.entries n p.1)).coef i j
      = ((e.feeding m j).map fun f => if i = n then f.constant.rat else f.collected i).sum :=
  he.within.coef_eq hfin hi hj

theorem abs_sum_sub_le {β : Type} {f g b : β → ℚ} {l : List β} (h : ∀ a ∈ l, |f a - g a| ≤ b a) :
    |(l.map f).sum - (l.map g).sum| ≤ (l.map b).sum := by
  induction l with
  | nil => simp
  | cons a l ih =>
    obtain ⟨ha, hl⟩ := List.forall_mem_cons.mp h
    simp only [List.map_cons, List.sum_cons]
    calc |f a + (l.map f).sum - (g a + (l.map g).sum)|
        = |(f a - g a) + ((l.map f).sum - (l.map g).sum)| := by ring_nf
      _ ≤ |f a - g a| + |(l.map f).sum - (l.map g).sum| := abs_add_le _ _
      _ ≤ b a + (l.map b).sum := add_le_add ha (ih hl)

/-- Terms added up column by column. -/
theorem sum_by_column {β : Type} (key : β → ℕ) (h : ℕ → β → ℚ) (a b : ℕ → ℚ) {l : List β} {w : ℕ}
    (hl : ∀ p ∈ l, key p < w) :
    ∑ i ∈ range n, ∑ j ∈ range w, a i * (l.map fun p => if key p = j then h i p else 0).sum * b j
      = (l.map fun p => (∑ i ∈ range n, a i * h i p) * b (key p)).sum := by
  induction l with
  | nil => simp
  | cons p l ih =>
    obtain ⟨hp, hl⟩ := List.forall_mem_cons.mp hl
    simp only [List.map_cons, List.sum_cons, mul_add, add_mul, sum_add_distrib, ih hl]
    congr 1
    rw [sum_mul]
    exact sum_congr rfl fun i _ => by simp [hp]

/-- The exact entries give the values of the expression. -/
theorem denote_eq_exact (he : e.Indexed n m) (u x : ℕ → ℚ) {y : Point}
    (hy : ∀ t ∈ e.terms, y t.1.column = x t.1.index) :
    e.denote u y = ∑ i ∈ range (n + 1), ∑ j ∈ range (m + 1),
      withOne n u i * e.exact n m i j * withOne m x j := by
  have hcoefficients : e.denote u y
      = ((e.coefficients m).map fun p => p.2.denote u * withOne m x p.1).sum := by
    simp only [denote, coefficients, List.map_append, List.sum_append, List.map_map, List.map_cons,
      List.map_nil, List.sum_cons, List.sum_nil]
    congr 1
    · congr 1
      refine List.map_congr_left fun t ht => ?_
      simp [withOne, he.decisions t ht, hy t ht]
    · simp [withOne]
  have hexpand : ∀ p ∈ e.coefficients m, p.2.denote u * withOne m x p.1
      = (∑ i ∈ range (n + 1), withOne n u i
          * if i = n then p.2.constant.rat else p.2.coefficient i) * withOne m x p.1 := by
    intro p hp
    rw [sum_withOne, p.2.denote_eq_homogeneous, ← p.2.sum_coefficient (he.parameters p hp)]
    congr 2
    · exact sum_congr rfl fun i hi => by simp [(mem_range.mp hi).ne, mul_comm]
    · simp
  simp only [exact, sum_feeding]
  rw [hcoefficients, List.map_congr_left hexpand, sum_by_column (fun p : ℕ × Uncertain Extended =>
    p.1) (fun i p => if i = n then p.2.constant.rat else p.2.coefficient i) _ _
    fun p hp => Nat.lt_succ_of_le (column_le_of_mem he.within.decisions hp)]

/-- The collected coefficients of a column are together within the slack of the exact ones. -/
theorem abs_collected_sub_le (hfin : e.Finite) (i j : ℕ) :
    |((e.feeding m j).map fun f => f.collected i).sum
      - ((e.feeding m j).map fun f => f.coefficient i).sum| ≤ e.slack m i j := by
  have hslack : e.slack m i j = ((e.feeding m j).map fun f =>
      Accumulator.tolerance + f.occurrences i * Accumulator.trace).sum := by
    rw [slack]
    induction e.feeding m j with
    | nil => simp
    | cons f l ih =>
      simp only [List.map_cons, List.sum_cons, List.length_cons, ← ih]
      push_cast
      ring
  rw [hslack]
  refine abs_sum_sub_le fun f hf => ?_
  obtain ⟨p, hp, rfl⟩ := List.mem_map.mp hf
  exact Uncertain.abs_collected_sub_le (hfin.of_mem (List.mem_filter.mp hp).1) i

/-- If the last row is exact, the value of a form is away from that of the expression by what its
other entries are away from the exact ones. -/
theorem valueAt_sub_denote (he : e.Indexed n m) {q : SparseMatrix Extended}
    (hrow : ∀ j < m + 1, q.coef n j = e.exact n m n j) (u x : ℕ → ℚ) {y : Point}
    (hy : ∀ t ∈ e.terms, y t.1.column = x t.1.index) :
    valueAt q n m 1 u x - e.denote u y = ∑ i ∈ range n, ∑ j ∈ range (m + 1),
      u i * (q.coef i j - e.exact n m i j) * withOne m x j := by
  have hlast : ∑ j ∈ range (m + 1), withOne n u n * q.coef n j * withOne m x j
      - ∑ j ∈ range (m + 1), withOne n u n * e.exact n m n j * withOne m x j = 0 :=
    sub_eq_zero.mpr (sum_congr rfl fun j hj => by rw [hrow j (mem_range.mp hj)])
  rw [denote_eq_exact he u x hy, valueAt, one_mul, ← sum_sub_distrib, sum_range_succ, hlast,
    add_zero]
  refine sum_congr rfl fun i hi => ?_
  rw [← sum_sub_distrib]
  refine sum_congr rfl fun j _ => ?_
  rw [withOne, if_pos (mem_range.mp hi)]
  ring

/-- The matrix of a finite expression has the exact constants in its last row, all other entries
are within the slack of the exact ones, and so are the values of the form: up to the entries'
slacks they are those of the expression, for all values of the parameters and of the decision
variables. -/
theorem coefficientMatrix_represents (hfin : e.Finite) (he : e.Indexed n m) :
    ∃ q, e.coefficientMatrix n m = .ok q ∧ Shaped q n m
      ∧ (∀ j < m + 1, q.coef n j = ((e.feeding m j).map fun f => f.constant.rat).sum)
      ∧ (∀ i < n, ∀ j < m + 1,
        |q.coef i j - ((e.feeding m j).map fun f => f.coefficient i).sum| ≤ e.slack m i j)
      ∧ ∀ (u x : ℕ → ℚ) (y : Point), (∀ t ∈ e.terms, y t.1.column = x t.1.index) →
        |valueAt q n m 1 u x - e.denote u y|
          ≤ ∑ i ∈ range n, ∑ j ∈ range (m + 1), |u i| * e.slack m i j * |withOne m x j| := by
  let q := SparseMatrix.ofEntries (n + 1) (m + 1)
    ((e.coefficients m).flatMap fun p => p.2.entries n p.1)
  have hentries := forall_mem_entries hfin he
  have hrow : ∀ j < m + 1, q.coef n j = e.exact n m n j := fun j hj => by
    rw [coef_eq hfin he (Nat.lt_succ_self n) hj]
    simp [exact]
  have hclose : ∀ i < n, ∀ j < m + 1, |q.coef i j - e.exact n m i j| ≤ e.slack m i j :=
    fun i hi j hj => by
      rw [coef_eq hfin he (Nat.lt_succ_of_lt hi) hj]
      simpa only [exact, if_neg hi.ne] using abs_collected_sub_le hfin i j
  refine ⟨q, coefficientMatrix_eq hfin he, ⟨?_, SparseMatrix.height_ofEntries _ _ _, rfl⟩,
    fun j hj => ?_, fun i hi j hj => ?_, fun u x y hy => ?_⟩
  · exact SparseMatrix.canonical_ofEntries (fun t ht => (hentries t ht).1)
      fun t ht => (hentries t ht).2
  · simpa [exact] using hrow j hj
  · simpa only [exact, if_neg hi.ne] using hclose i hi j hj
  · rw [valueAt_sub_denote he hrow u x hy]
    refine (abs_sum_le_sum_abs _ _).trans (sum_le_sum fun i hi => ?_)
    refine (abs_sum_le_sum_abs _ _).trans (sum_le_sum fun j hj => ?_)
    rw [abs_mul, abs_mul]
    gcongr
    exact hclose i (mem_range.mp hi) j (mem_range.mp hj)

end Mixed

/-! ## A cancellation on the way -/

namespace Brew

def strength : Parameter Extended := ⟨0, 0, .text "u", .finite 0, .finite 1⟩

def amount : Decision Extended :=
  ⟨0, 0, "x", .finite 0, .posInf, ⟨0, none, .decision 0, false, false⟩⟩

/-- `(2 u - 2 u + 5 u + 1) x + (3 u + 4) x + u`. -/
def taste : Mixed Extended where
  terms := [(amount, ⟨[(strength, .finite 2), (strength, .finite (-2)), (strength, .finite 5)],
    .finite 1⟩), (amount, ⟨[(strength, .finite 3)], .finite 4⟩)]
  constant := ⟨[(strength, .finite 1)], .finite 0⟩

theorem taste_finite : taste.Finite := by
  simp only [taste, Mixed.Finite, Uncertain.Finite, List.forall_mem_cons]
  simp

theorem taste_indexed : taste.Indexed 1 1 := by
  refine ⟨by simp [taste, amount], ?_⟩
  simp only [taste, Mixed.coefficients, List.map_cons, List.map_nil, List.cons_append,
    List.nil_append, List.forall_mem_cons, strength]
  simp

end Brew

/-- The constants are exact, and the coefficient of the product keeps the trace of the cancellation
within its slack. -/
theorem brew_coefficientMatrix_represents : Brew.taste.Finite ∧ Brew.taste.Indexed 1 1
    ∧ ∃ q, Brew.taste.coefficientMatrix 1 1 = .ok q ∧ q.coef 1 0 = 5
      ∧ |q.coef 0 0 - 8| ≤ 2 * Accumulator.tolerance + 4 * Accumulator.trace
      ∧ ∀ u x : ℕ → ℚ, |Bilinear.valueAt q 1 1 1 u x - ((8 * u 0 + 5) * x 0 + u 0)|
        ≤ |u 0| * (2 * Accumulator.tolerance + 4 * Accumulator.trace) * |x 0|
          + |u 0| * (Accumulator.tolerance + Accumulator.trace) := by
  obtain ⟨q, hq, -, hconstant, hentry, hvalue⟩ :=
    Mixed.coefficientMatrix_represents Brew.taste_finite Brew.taste_indexed
  have hslack : Brew.taste.slack 1 0 0 = 2 * Accumulator.tolerance + 4 * Accumulator.trace
      ∧ Brew.taste.slack 1 0 1 = Accumulator.tolerance + Accumulator.trace := by decide +kernel
  have hexact : ((Brew.taste.feeding 1 0).map fun f => f.constant.rat).sum = 5
      ∧ ((Brew.taste.feeding 1 0).map fun f => f.coefficient 0).sum = 8 := by decide +kernel
  refine ⟨Brew.taste_finite, Brew.taste_indexed, q, hq, ?_, ?_, fun u x => ?_⟩
  · rw [hconstant 0 (by decide), hexact.1]
  · simpa only [hslack, hexact] using hentry 0 (by decide) 0 (by decide)
  · have hbound := hvalue u x (fun _ => x 0) (by simp [Brew.taste, Brew.amount])
    have hdenote : Brew.taste.denote u (fun _ => x 0) = (8 * u 0 + 5) * x 0 + u 0 := by
      simp [Brew.taste, Mixed.denote, Uncertain.denote, Brew.strength]
      ring
    simpa [hdenote, hslack, sum_range_succ, Bilinear.withOne] using hbound

end RobustOpt
