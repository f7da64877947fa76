import RobustOpt.Proofs.Action
import RobustOpt.Proofs.Affine
import RobustOpt.UncertaintySet.CuttingPlane

/-!
# The two readings of a bilinear form

At decision values `x` and parameter values `u` a form has the value `sign * [u, 1] · Q · [x, 1]`.
Fixing `x` leaves an affine function of `u` and fixing `u` one of `x`; the program computes the
coefficients of either from the sparse rows of `Q`. Both are shown to be those of the one value.

## Main definitions

* `SparseMatrix.Canonical`: rows in column order, below the width, with finite entries.
* `SparseMatrix.Regular`: the same with sharp entries.
* `Bilinear.Shaped`, `Bilinear.Fits`: a canonical form, or a regular one, for given numbers of
  parameters and decision variables.
* `Bilinear.valueAt`: the value of a signed form.
* `Bilinear.slope`, `Bilinear.weight`: its coefficients in the parameters and in the decisions.
* `Affine.kept`: the coefficients that are written for a matrix.

## Main statements

* `Bilinear.sensitivity_spec`, `Bilinear.substitute_spec`: the computed coefficients.
* `Mixed.shaped_coefficientMatrix`, `Mixed.fits_coefficientMatrix`: the matrix of an expression.
* `Affine.ofCoefficients_spec`, `Affine.ofMap_spec`: the expressions written from coefficients.
* `Affine.ofMap_kept`: those written from coefficients some of which are negligible.
-/

namespace RobustOpt

open Finset

/-! ## Rows -/

namespace SparseMatrix

/-- The result is a matrix with given rows and a given width. -/
theorem eq_ok_of_rows {ε : Type} {r : Except ε (SparseMatrix Extended)}
    {m : SparseMatrix Extended}
    (h : r.toOption.map (fun m => (m.rows, m.width)) = some (m.rows, m.width)) : r = .ok m := by
  obtain ⟨⟨rows, width⟩, hr, heq⟩ := Option.map_eq_some_iff.mp h
  obtain ⟨rfl, rfl⟩ := Prod.mk.inj heq
  exact toOption_eq_some.mp hr

/-- A row in increasing column order. -/
def Ordered (row : List (ℕ × Extended)) : Prop := row.Pairwise fun s t => s.1 < t.1

theorem mem_insert {c d : ℕ} {x y : Extended} {row : List (ℕ × Extended)}
    (h : (d, y) ∈ insert c x row) : d = c ∨ ∃ z, (d, z) ∈ row := by
  induction row with
  | nil => simp_all [insert]
  | cons p row ih =>
    obtain ⟨e, z⟩ := p
    unfold insert at h
    split_ifs at h with hlt heq
    · rcases List.mem_cons.mp h with h | h
      · exact .inl (Prod.mk.inj h).1
      · exact .inr ⟨y, h⟩
    · rcases List.mem_cons.mp h with h | h
      · exact .inl ((Prod.mk.inj h).1.trans heq.symm)
      · exact .inr ⟨y, by simp [h]⟩
    · rcases List.mem_cons.mp h with h | h
      · exact .inr ⟨z, by simp [(Prod.mk.inj h).1]⟩
      · obtain h | ⟨z', h⟩ := ih h
        · exact .inl h
        · exact .inr ⟨z', by simp [h]⟩

theorem ordered_insert {c : ℕ} {x : Extended} {row : List (ℕ × Extended)} (h : Ordered row) :
    Ordered (insert c x row) := by
  induction row with
  | nil => simp [insert, Ordered]
  | cons p row ih =>
    obtain ⟨d, y⟩ := p
    obtain ⟨hhead, htail⟩ := List.pairwise_cons.mp h
    unfold insert
    split_ifs with hlt heq
    · refine List.pairwise_cons.mpr ⟨fun t ht => ?_, h⟩
      rcases List.mem_cons.mp ht with rfl | ht
      · exact hlt
      · exact hlt.trans (hhead t ht)
    · exact List.pairwise_cons.mpr ⟨hhead, htail⟩
    · refine List.pairwise_cons.mpr ⟨fun t ht => ?_, ih htail⟩
      obtain h | ⟨z, hz⟩ := mem_insert (d := t.1) (y := t.2) ht
      · show d < t.1
        omega
      · exact hhead (t.1, z) hz

/-- Inserting entries one after the other keeps a row in order and within the columns used. -/
theorem foldl_insert {P : ℕ → Prop} (entries : List (ℕ × ℕ × Extended))
    (h : ∀ e ∈ entries, P e.2.1) {row : List (ℕ × Extended)} (hrow : Ordered row)
    (hP : ∀ t ∈ row, P t.1) :
    Ordered (entries.foldl (fun row e => insert e.2.1 e.2.2 row) row)
      ∧ ∀ t ∈ entries.foldl (fun row e => insert e.2.1 e.2.2 row) row, P t.1 := by
  induction entries generalizing row with
  | nil => exact ⟨hrow, hP⟩
  | cons e entries ih =>
    refine ih (fun f hf => h f (by simp [hf])) (ordered_insert hrow) fun t ht => ?_
    obtain heq | ⟨z, hz⟩ := mem_insert (d := t.1) (y := t.2) ht
    · rw [heq]
      exact h e (by simp)
    · exact hP (t.1, z) hz

/-- The entry of an ordered row that starts at some column. -/
theorem entry_cons (c j : ℕ) (x : Extended) (row : List (ℕ × Extended)) :
    entry ((c, x) :: row) j = if c = j then x else entry row j := by
  by_cases h : c = j <;> simp [entry, h]

theorem entry_eq_zero {row : List (ℕ × Extended)} {j : ℕ} (h : ∀ t ∈ row, t.1 ≠ j) :
    entry row j = 0 := by
  induction row with
  | nil => rfl
  | cons t row ih =>
    rw [entry_cons, if_neg (h t (by simp)), ih fun s hs => h s (by simp [hs])]

theorem entry_eq_zero_or_mem (row : List (ℕ × Extended)) (j : ℕ) :
    entry row j = 0 ∨ ∃ t ∈ row, entry row j = t.2 := by
  induction row with
  | nil => exact .inl rfl
  | cons t row ih =>
    obtain ⟨c, x⟩ := t
    rw [entry_cons]
    split_ifs
    · exact .inr ⟨(c, x), by simp⟩
    · exact ih.imp_right fun ⟨t, ht, h⟩ => ⟨t, by simp [ht], h⟩

/-- The terms of an ordered row add up to a sum over all its columns. -/
theorem sum_entries {row : List (ℕ × Extended)} (h : Ordered row) {w : ℕ}
    (hw : ∀ t ∈ row, t.1 < w) (f : ℕ → ℚ) :
    (row.map fun t => t.2.rat * f t.1).sum = ∑ j ∈ range w, (entry row j).rat * f j := by
  induction row with
  | nil => simp [entry]
  | cons t row ih =>
    obtain ⟨c, x⟩ := t
    obtain ⟨hhead, htail⟩ := List.pairwise_cons.mp h
    have hc : entry row c = 0 := entry_eq_zero fun t ht => (hhead t ht).ne'
    have hsplit : ∀ j, (entry ((c, x) :: row) j).rat * f j
        = (if c = j then x.rat * f j else 0) + (entry row j).rat * f j := by
      intro j
      rw [entry_cons]
      split_ifs with hj
      · subst hj
        simp [hc]
      · simp
    rw [List.map_cons, List.sum_cons, ih htail fun t ht => hw t (by simp [ht])]
    simp only [hsplit, sum_add_distrib]
    rw [sum_ite_eq, if_pos (mem_range.mpr (hw (c, x) (by simp)))]

/-- All stored entries are sharp. -/
def Sharp (q : SparseMatrix Extended) : Prop := ∀ row ∈ q.rows, ∀ t ∈ row, Scalar.isSharp t.2 = true

/-- All stored entries are finite. -/
def Finite (q : SparseMatrix Extended) : Prop :=
  ∀ row ∈ q.rows, ∀ t ∈ row, Scalar.isFinite t.2 = true

theorem Sharp.finite {q : SparseMatrix Extended} (h : q.Sharp) : q.Finite :=
  fun row hrow t ht => Extended.isFinite_of_isSharp (h row hrow t ht)

/-- Rows in column order, below the width, with finite entries. -/
structure Canonical (q : SparseMatrix Extended) : Prop where
  ordered : ∀ row ∈ q.rows, Ordered row
  below : ∀ row ∈ q.rows, ∀ t ∈ row, t.1 < q.width
  finite : q.Finite

/-- Rows in column order, below the width, with entries that are zero or not negligible. -/
structure Regular (q : SparseMatrix Extended) : Prop where
  ordered : ∀ row ∈ q.rows, Ordered row
  below : ∀ row ∈ q.rows, ∀ t ∈ row, t.1 < q.width
  sharp : q.Sharp

theorem Regular.canonical {q : SparseMatrix Extended} (hq : q.Regular) : q.Canonical :=
  ⟨hq.ordered, hq.below, hq.sharp.finite⟩

/-- The rational entry in a row and a column. -/
def coef (q : SparseMatrix Extended) (i j : ℕ) : ℚ := (entry (q.rows.getD i []) j).rat

theorem ordered_ofEntries (height : ℕ) {width : ℕ} {entries : List (ℕ × ℕ × Extended)}
    (h : ∀ e ∈ entries, e.2.1 < width) :
    ∀ row ∈ (ofEntries height width entries).rows, Ordered row ∧ ∀ t ∈ row, t.1 < width := by
  simp only [ofEntries, List.forall_mem_map]
  intro i _
  exact foldl_insert (P := (· < width)) _ (fun e he => h e (List.mem_filter.mp he).1)
    List.Pairwise.nil (by simp)

variable {q : SparseMatrix Extended}

theorem Regular.isSharp_entry (hq : q.Regular) {row : List (ℕ × Extended)} (hrow : row ∈ q.rows)
    (j : ℕ) : Scalar.isSharp (entry row j) = true := by
  rcases entry_eq_zero_or_mem row j with h | ⟨t, ht, h⟩
  · rw [h]
    rfl
  · rw [h]
    exact hq.sharp row hrow t ht

variable (hq : q.Canonical)
include hq

theorem Canonical.isFinite_entry {row : List (ℕ × Extended)} (hrow : row ∈ q.rows) (j : ℕ) :
    Scalar.isFinite (entry row j) = true := by
  rcases entry_eq_zero_or_mem row j with h | ⟨t, ht, h⟩
  · rw [h]
    rfl
  · rw [h]
    exact hq.finite row hrow t ht

/-- Each entry of a product with a column vector. -/
theorem Canonical.mulVec_eq {x : List Extended} (hx : ∀ y ∈ x, Scalar.isFinite y = true) :
    q.mulVec x = (List.range q.height).map fun i =>
      .finite (∑ j ∈ range q.width, q.coef i j * Extended.coord x j) := by
  rw [mulVec, map_eq_map_range _ []]
  refine List.map_congr_left fun i hi => ?_
  have hrow : q.rows.getD i [] ∈ q.rows := getD_mem (List.mem_range.mp hi)
  rw [Extended.zero_eq, Extended.foldl_eq_sum (g := fun t => t.2.rat * Extended.coord x t.1),
    sum_entries (hq.ordered _ hrow) (hq.below _ hrow), zero_add]
  · rfl
  · intro t ht b
    obtain ⟨a, ha⟩ := Extended.isFinite_iff.mp (hq.finite _ hrow t ht)
    rw [← Extended.zero_eq, ← Extended.finite_coord hx, ha, Extended.finite_mul,
      Extended.finite_add, Extended.rat_finite]

/-- Each entry of a product with a row vector. -/
theorem Canonical.vecMul_eq {u : List Extended} (hu : ∀ y ∈ u, Scalar.isFinite y = true)
    (hl : u.length = q.height) :
    vecMul u q = (List.range q.width).map fun j =>
      .finite (∑ i ∈ range q.height, Extended.coord u i * q.coef i j) := by
  refine List.map_congr_left fun j _ => ?_
  -- the sum over the rows is taken along the list of rows
  have hsum : ∀ (rows : List (List (ℕ × Extended))) (us : List Extended),
      us.length = rows.length → ((rows.zip us).map fun r => (entry r.1 j).rat * r.2.rat).sum
        = ∑ i ∈ range rows.length, Extended.coord us i * (entry (rows.getD i []) j).rat := by
    intro rows
    induction rows with
    | nil => simp
    | cons row rows ih =>
      intro us hl
      obtain ⟨y, us, rfl⟩ := List.exists_cons_of_length_eq_add_one hl
      rw [List.zip_cons_cons, List.map_cons, List.sum_cons, ih us (by simpa using hl),
        List.length_cons, sum_range_succ']
      simp [mul_comm, add_comm]
  rw [Extended.zero_eq, Extended.foldl_eq_sum (g := fun r => (entry r.1 j).rat * r.2.rat),
    hsum q.rows u hl, zero_add]
  · rfl
  · rintro ⟨row, y⟩ hr b
    obtain ⟨hrow, hy⟩ := List.of_mem_zip hr
    obtain ⟨c, rfl⟩ := Extended.isFinite_iff.mp (hu y hy)
    cases hfind : row.find? fun p => p.1 == j with
    | none => simp [entry, hfind]
    | some p =>
      obtain ⟨a, ha⟩ :=
        Extended.isFinite_iff.mp (hq.finite row hrow p (List.mem_of_find?_eq_some hfind))
      simp [entry, hfind, ha]

end SparseMatrix

/-! ## Values -/

namespace Bilinear

/-- The entries of a vector with `n` entries followed by a one. -/
def withOne (n : ℕ) (u : ℕ → ℚ) (i : ℕ) : ℚ := if i < n then u i else 1

theorem sum_withOne (n : ℕ) (u f : ℕ → ℚ) :
    ∑ i ∈ range (n + 1), withOne n u i * f i = ∑ i ∈ range n, u i * f i + f n := by
  rw [sum_range_succ]
  congr 1
  · exact sum_congr rfl fun i hi => by rw [withOne, if_pos (mem_range.mp hi)]
  · simp [withOne]

/-- The value of `sign * [u, 1] · Q · [x, 1]` for `n` parameters and `m` decision variables. -/
def valueAt (q : SparseMatrix Extended) (n m : ℕ) (sign : ℚ) (u x : ℕ → ℚ) : ℚ :=
  sign * ∑ i ∈ range (n + 1), ∑ j ∈ range (m + 1), withOne n u i * q.coef i j * withOne m x j

/-- The coefficient of a parameter at decision values `x`; at `n` the part without parameters. -/
def slope (q : SparseMatrix Extended) (m : ℕ) (sign : ℚ) (x : ℕ → ℚ) (i : ℕ) : ℚ :=
  sign * ∑ j ∈ range (m + 1), q.coef i j * withOne m x j

/-- The coefficient of a decision variable at parameter values `u`; at `m` the part without
decision variables. -/
def weight (q : SparseMatrix Extended) (n : ℕ) (sign : ℚ) (u : ℕ → ℚ) (j : ℕ) : ℚ :=
  sign * ∑ i ∈ range (n + 1), withOne n u i * q.coef i j

theorem valueAt_eq_slope (q : SparseMatrix Extended) (n m : ℕ) (sign : ℚ) (u x : ℕ → ℚ) :
    valueAt q n m sign u x
      = ∑ i ∈ range n, u i * slope q m sign x i + slope q m sign x n := by
  rw [← sum_withOne, valueAt, mul_sum]
  refine sum_congr rfl fun i _ => ?_
  rw [slope, mul_sum, mul_sum, mul_sum]
  exact sum_congr rfl fun j _ => by ring

theorem valueAt_eq_weight (q : SparseMatrix Extended) (n m : ℕ) (sign : ℚ) (u x : ℕ → ℚ) :
    valueAt q n m sign u x
      = ∑ j ∈ range m, x j * weight q n sign u j + weight q n sign u m := by
  rw [← sum_withOne, valueAt, sum_comm, mul_sum]
  refine sum_congr rfl fun j _ => ?_
  rw [weight, mul_sum, mul_sum, mul_sum]
  exact sum_congr rfl fun i _ => by ring

/-- A canonical form for `n` parameters and `m` decision variables. -/
structure Shaped (q : SparseMatrix Extended) (n m : ℕ) : Prop where
  canonical : q.Canonical
  height : q.height = n + 1
  width : q.width = m + 1

/-- A regular form for `n` parameters and `m` decision variables. -/
structure Fits (q : SparseMatrix Extended) (n m : ℕ) : Prop where
  regular : q.Regular
  height : q.height = n + 1
  width : q.width = m + 1

theorem Fits.shaped {q : SparseMatrix Extended} {n m : ℕ} (hq : Fits q n m) : Shaped q n m :=
  ⟨hq.regular.canonical, hq.height, hq.width⟩

/-- One or minus one. -/
def IsSign (s : Extended) : Prop := s = .finite 1 ∨ s = .finite (-1)

theorem IsSign.isFinite {s : Extended} (h : IsSign s) : Scalar.isFinite s = true := by
  rcases h with rfl | rfl <;> rfl

/-- The scalars of the first entries of a vector. -/
def scalars (n : ℕ) (u : ℕ → ℚ) : List Extended := (List.range n).map fun i => .finite (u i)

@[simp] theorem length_scalars (n : ℕ) (u : ℕ → ℚ) : (scalars n u).length = n := by
  simp [scalars]

theorem isFinite_of_mem_scalars {n : ℕ} {u : ℕ → ℚ} {x : Extended} (h : x ∈ scalars n u) :
    Scalar.isFinite x = true := by
  obtain ⟨i, -, rfl⟩ := List.mem_map.mp h
  rfl

theorem getD_scalars {n i : ℕ} (u : ℕ → ℚ) (h : i < n) :
    (scalars n u).getD i 0 = .finite (u i) := by
  rw [List.getD_eq_getElem _ _ (by simpa using h)]
  simp [scalars]

/-- The scalars of a vector with their positions. -/
theorem zip_range_scalars (n : ℕ) (u : ℕ → ℚ) :
    (List.range (scalars n u).length).zip (scalars n u)
      = (List.range n).map fun i => (i, Extended.finite (u i)) := by
  rw [length_scalars, scalars]
  simpa using List.zip_map' (l := List.range n) (f := id) (g := fun i => Extended.finite (u i))

@[simp] theorem coord_scalars {n i : ℕ} (u : ℕ → ℚ) (h : i < n) :
    Extended.coord (scalars n u) i = u i :=
  Extended.coord_map_range u h

/-- The finite scalars of a list. -/
theorem map_toFinite (us : List Extended) : us.map Scalar.toFinite
    = scalars us.length fun i => (Scalar.toFinite (us.getD i 0)).rat := by
  refine List.ext_getElem (by simp) fun i hi _ => ?_
  have hi : i < us.length := by simpa using hi
  rw [List.getElem_map, ← Extended.finite_rat (Extended.isFinite_toFinite us[i])]
  simp [scalars, hi]

theorem coord_scalars_append_one (n : ℕ) (u : ℕ → ℚ) {i : ℕ} (h : i < n + 1) :
    Extended.coord (scalars n u ++ [1]) i = withOne n u i := by
  unfold withOne
  split_ifs with hi
  · rw [Extended.coord, List.getD_append _ _ _ _ (by simpa using hi)]
    exact coord_scalars u hi
  · obtain rfl : i = n := by omega
    simp [Extended.coord, List.getD_eq_getElem?_getD, scalars]

theorem isFinite_append_one {n : ℕ} {u : ℕ → ℚ} :
    ∀ x ∈ scalars n u ++ [1], Scalar.isFinite x = true := by
  simp only [List.mem_append, List.mem_singleton]
  rintro x (h | rfl)
  exacts [isFinite_of_mem_scalars h, rfl]

/-- The inner product of a finite list with the scalars of a vector. -/
theorem dot_scalars {xs : List Extended} (h : ∀ x ∈ xs, Scalar.isFinite x = true) (n : ℕ)
    (u : ℕ → ℚ) : Scalar.dot xs (scalars n u)
      = .finite (∑ i ∈ range n, Extended.coord xs i * u i) := by
  rw [Extended.dot_eq_pairing _ _ h fun _ => isFinite_of_mem_scalars,
    Extended.pairing_eq_sum _ _ (n := n) (by simp)]
  congr 1
  exact sum_congr rfl fun i hi => by rw [coord_scalars u (mem_range.mp hi)]

variable {q : SparseMatrix Extended} {n m : ℕ} {s : Extended}

/-- The coefficients of the parameters as the program computes them. -/
theorem sensitivity_spec (hq : Shaped q n m) (hs : Scalar.isFinite s = true) (x : ℕ → ℚ) :
    sensitivity q s (scalars m x ++ [1])
      = (scalars n (slope q m s.rat x), .finite (slope q m s.rat x n)) := by
  obtain ⟨c, rfl⟩ := Extended.isFinite_iff.mp hs
  have hfull : (q.mulVec (scalars m x ++ [1])).map (.finite c * ·)
      = scalars (n + 1) (slope q m c x) := by
    rw [hq.canonical.mulVec_eq isFinite_append_one, hq.height, List.map_map]
    refine List.map_congr_left fun i _ => ?_
    rw [Function.comp_apply, Extended.finite_mul, slope, hq.width]
    congr 2
    exact sum_congr rfl fun j hj => by rw [coord_scalars_append_one m x (mem_range.mp hj)]
  rw [sensitivity, hfull]
  simp [scalars, List.range_succ]

/-- The coefficients of the decision variables as the program computes them. -/
theorem substitute_spec (hq : Shaped q n m) (hs : Scalar.isFinite s = true) (u : ℕ → ℚ) :
    substitute q s (scalars n u) = scalars (m + 1) (weight q n s.rat u) := by
  obtain ⟨c, rfl⟩ := Extended.isFinite_iff.mp hs
  rw [substitute, hq.canonical.vecMul_eq isFinite_append_one (by simp [hq.height]), hq.width,
    List.map_map]
  refine List.map_congr_left fun j _ => ?_
  rw [Function.comp_apply, Extended.finite_mul, weight, hq.height]
  congr 2
  exact sum_congr rfl fun i hi => by rw [coord_scalars_append_one n u (mem_range.mp hi)]

theorem slope_eq_sum (q : SparseMatrix Extended) (m : ℕ) (sign : ℚ) (x : ℕ → ℚ) (i : ℕ) :
    slope q m sign x i = ∑ j ∈ range m, sign * q.coef i j * x j + sign * q.coef i m := by
  rw [slope, mul_sum, sum_range_succ]
  congr 1
  · refine sum_congr rfl fun j hj => ?_
    rw [withOne, if_pos (mem_range.mp hj), mul_assoc]
  · simp [withOne]

theorem Shaped.row_mem (hq : Shaped q n m) {i : ℕ} (hi : i < n + 1) :
    q.rows.getD i [] ∈ q.rows :=
  getD_mem (hi.trans_eq hq.height.symm)

theorem Shaped.entry_eq (hq : Shaped q n m) {i : ℕ} (hi : i < n + 1) (j : ℕ) :
    SparseMatrix.entry (q.rows.getD i []) j = .finite (q.coef i j) :=
  (Extended.finite_rat (hq.canonical.isFinite_entry (hq.row_mem hi) j)).symm

/-- Signed entries are sharp. -/
theorem Fits.isSharp_coef (hq : Fits q n m) (hs : IsSign s) {i : ℕ} (hi : i < n + 1) (j : ℕ) :
    Scalar.isSharp (Extended.finite (s.rat * q.coef i j)) = true := by
  have h := Extended.isSharp_sign_mul hs (hq.regular.isSharp_entry (hq.shaped.row_mem hi) j)
  rwa [hq.shaped.entry_eq hi, ← Extended.finite_rat hs.isFinite, Extended.finite_mul] at h

/-- The parts of a side as the program computes them. -/
theorem splitSide_spec (hq : Shaped q n m) (hs : Scalar.isFinite s = true) :
    splitSide? q.toDense s n = .ok
      { linear := (List.range n).map fun i => scalars m fun j => s.rat * q.coef i j
        offset := (List.range n).map fun i => .finite (s.rat * q.coef i m)
        certain := scalars (m + 1) fun j => s.rat * q.coef n j } := by
  have hdense : (q.toDense).map (·.map (s * ·)) = (List.range (n + 1)).map fun i =>
      scalars (m + 1) fun j => s.rat * q.coef i j := by
    rw [SparseMatrix.toDense, List.map_map, map_eq_map_range _ [], ← SparseMatrix.height,
      hq.height, hq.width]
    refine List.map_congr_left fun i hi => ?_
    simp only [Function.comp_apply, List.map_map, scalars, Function.comp_def,
      hq.entry_eq (List.mem_range.mp hi)]
    rw [← Extended.finite_rat hs]
    rfl
  rw [splitSide?, if_pos (by rw [SparseMatrix.length_toDense, hq.height]; omega), splitSide,
    hdense]
  congr 2
  · rw [← List.map_take, List.take_range, List.map_map, min_eq_left (by omega)]
    refine List.map_congr_left fun i _ => ?_
    simp [scalars, List.range_succ]
  · rw [← List.map_take, List.take_range, List.map_map, min_eq_left (by omega)]
    refine List.map_congr_left fun i _ => ?_
    simp [scalars, List.range_succ]
  · simp [List.getD_eq_getElem?_getD]

end Bilinear

/-- The matrix of an expression has the shape it was asked for. -/
theorem Mixed.shaped_coefficientMatrix {e : Mixed Extended} {n m : ℕ} {q : SparseMatrix Extended}
    (h : e.coefficientMatrix n m = .ok q) (hfin : q.Finite) : Bilinear.Shaped q n m := by
  obtain ⟨entries, -, h⟩ := bind_eq_ok.mp h
  split_ifs at h with hall
  · obtain rfl := pure_eq_ok.mp h
    have hbelow : ∀ e ∈ entries, e.2.1 < m + 1 := fun e he =>
      Nat.lt_succ_of_le (by simpa using List.all_eq_true.mp hall e he)
    have hrows := SparseMatrix.ordered_ofEntries (n + 1) hbelow
    exact ⟨⟨fun row hrow => (hrows row hrow).1, fun row hrow => (hrows row hrow).2, hfin⟩,
      SparseMatrix.height_ofEntries _ _ _, rfl⟩

/-- The matrix of an expression fits the numbers it was asked for. -/
theorem Mixed.fits_coefficientMatrix {e : Mixed Extended} {n m : ℕ} {q : SparseMatrix Extended}
    (h : e.coefficientMatrix n m = .ok q) (hsharp : q.Sharp) : Bilinear.Fits q n m := by
  obtain ⟨⟨hordered, hbelow, -⟩, hheight, hwidth⟩ := shaped_coefficientMatrix h hsharp.finite
  exact ⟨⟨hordered, hbelow, hsharp⟩, hheight, hwidth⟩

/-! ## Expressions written from coefficients -/

/-- The values of decision variables at a point, by position. -/
def Decision.valuesAt (ds : List (Decision Extended)) (y : Point) (j : ℕ) : ℚ :=
  ((ds.map fun d => y d.column).getD j 0)

/-- Whether a column belongs to one of the decision variables. -/
def Decision.Owns (ds : List (Decision Extended)) (c : Column) : Prop :=
  c ∈ ds.map Decision.column

theorem sum_eq_sum_range (xs : List ℚ) : xs.sum = ∑ i ∈ range xs.length, xs.getD i 0 := by
  induction xs with
  | nil => simp
  | cons x xs ih =>
    rw [List.sum_cons, ih, List.length_cons, sum_range_succ']
    simp [add_comm]

/-- Items that contribute nothing may be left out of a sum. -/
theorem sum_map_filter {β : Type} (p : β → Bool) (f : β → ℚ) (l : List β)
    (h : ∀ b ∈ l, p b = false → f b = 0) : ((l.filter p).map f).sum = (l.map f).sum := by
  induction l with
  | nil => rfl
  | cons b l ih =>
    have ih := ih fun c hc => h c (by simp [hc])
    cases hb : p b with
    | true => simp [hb, ih]
    | false => simp [hb, ih, h b (by simp) hb]

namespace Affine

variable {m : ℕ} {ds : List (Decision Extended)}

/-- Terms of decision variables by position, summed over all positions. -/
theorem sum_zip_decisions (w : ℕ → ℚ) (hl : ds.length = m) (y : Point) :
    (((List.range m).zip ds).map fun p => w p.1 * y p.2.column).sum
      = ∑ j ∈ range m, w j * Decision.valuesAt ds y j := by
  rw [sum_eq_sum_range]
  simp only [List.length_map, List.length_zip, List.length_range, hl, min_self]
  refine sum_congr rfl fun j hj => ?_
  have hj' : j < ds.length := by simpa [hl] using hj
  rw [List.getD_eq_getElem _ _ (by simpa [hl] using hj), Decision.valuesAt,
    List.getD_eq_getElem _ _ (by simpa using hj')]
  simp

/-- A combination of decision variables, some of which with coefficient zero are left out. -/
theorem combination_spec (w : ℕ → ℚ) (c : ℚ) (keep : ℕ × Decision Extended → Bool)
    (hl : ds.length = m) (hkeep : ∀ p ∈ (List.range m).zip ds, keep p = false → w p.1 = 0) :
    (combination (.finite c) ((((List.range m).zip ds).filter keep).map fun p =>
        (.finite (w p.1), p.2.name, p.2.column))).Within (Decision.Owns ds)
      ∧ ∀ y : Point, (combination (.finite c) ((((List.range m).zip ds).filter keep).map fun p =>
        (.finite (w p.1), p.2.name, p.2.column))).eval y.exact
        = .finite (∑ j ∈ range m, w j * Decision.valuesAt ds y j + c) := by
  constructor
  · rw [within_combination, List.forall_mem_map]
    intro p hp
    exact List.mem_map_of_mem (List.of_mem_zip (List.mem_of_mem_filter hp)).2
  · intro y
    rw [eval_combination rfl (List.forall_mem_map.mpr fun _ _ => rfl), List.map_map, add_comm,
      ← sum_zip_decisions w hl]
    congr 2
    refine sum_map_filter keep _ _ fun p hp hk => ?_
    simp [hkeep p hp hk]

/-- An expression written from sharp coefficients has the value they say, although negligible
terms are left out of it. -/
theorem ofCoefficients_spec (ds : List (Decision Extended)) (w : ℕ → ℚ) (hl : ds.length = m)
    (hw : ∀ j < m, Scalar.isSharp (Extended.finite (w j)) = true) :
    ∃ e, ofCoefficients (Bilinear.scalars (m + 1) w) ds = .ok e ∧ e.Within (Decision.Owns ds)
      ∧ ∀ y : Point, e.eval y.exact
        = .finite (∑ j ∈ range m, w j * Decision.valuesAt ds y j + w m) := by
  have hlast : (Bilinear.scalars (m + 1) w).getLast?.getD 0 = .finite (w m) := by
    simp [Bilinear.scalars, List.range_succ]
  have hzip : (Bilinear.scalars (m + 1) w).zip ds
      = ((List.range m).zip ds).map fun p => (Extended.finite (w p.1), p.2) := by
    rw [Bilinear.scalars, List.range_succ, List.map_append,
      ← List.append_nil ds, List.zip_append (by simp [hl]), List.append_nil]
    simp [List.zip_map_left]
  refine ⟨_, if_neg (by simp [hl]), ?_⟩
  rw [hlast, hzip, List.filter_map, List.map_map]
  refine combination_spec w (w m) (fun p => !Scalar.negligible (Extended.finite (w p.1))) hl ?_
  intro p hp hk
  have hj : p.1 < m := List.mem_range.mp (List.of_mem_zip hp).1
  exact Extended.rat_eq_zero_of_negligible (hw p.1 hj) (by simpa using hk)

/-- The coefficient of variable `j` in row `i`, as it is written for the rows at `positions`: a variable
whose column is negligible in all of them is left out. -/
def kept (positions : List ℕ) (w : ℕ → ℕ → ℚ) (i j : ℕ) : ℚ :=
  if ∀ k ∈ positions, Scalar.negligible (Extended.finite (w k j)) = true then 0 else w i j

/-- No variable of a sharp row is left out, unless its coefficient is zero. -/
theorem kept_of_sharp {positions : List ℕ} {w : ℕ → ℕ → ℚ} {i j : ℕ} (hi : i ∈ positions)
    (hw : Scalar.isSharp (Extended.finite (w i j)) = true) : kept positions w i j = w i j := by
  unfold kept
  split_ifs with h
  · exact (Extended.rat_eq_zero_of_negligible hw (h i hi)).symm
  · rfl

/-- Expressions written from the rows of a matrix have the values of what is kept of them. -/
theorem ofMap_kept (ds : List (Decision Extended)) (positions : List ℕ) (w : ℕ → ℕ → ℚ)
    (o : ℕ → ℚ) (hl : ds.length = m) :
    ∃ e : ℕ → Affine Extended,
      ofMap (positions.map fun i => Bilinear.scalars m (w i))
        (positions.map fun i => .finite (o i)) ds = .ok (positions.map e)
      ∧ ∀ i ∈ positions, (e i).Within (Decision.Owns ds)
        ∧ ∀ y : Point, (e i).eval y.exact
          = .finite (∑ j ∈ range m, kept positions w i j * Decision.valuesAt ds y j + o i) := by
  let keep : ℕ × Decision Extended → Bool := fun p =>
    (positions.map fun i => Bilinear.scalars m (w i)).any fun row =>
      !Scalar.negligible (row.getD p.1 0)
  have hentry : ∀ i, ∀ p ∈ (List.range m).zip ds,
      (Bilinear.scalars m (w i)).getD p.1 0 = .finite (w i p.1) := by
    intro i p hp
    exact Bilinear.getD_scalars (w i) (List.mem_range.mp (List.of_mem_zip hp).1)
  have hkeep : ∀ p ∈ (List.range m).zip ds, keep p = false ↔
      ∀ k ∈ positions, Scalar.negligible (Extended.finite (w k p.1)) = true := by
    intro p hp
    simp only [keep, List.any_map, List.any_eq_false, Function.comp_apply]
    refine forall₂_congr fun k _ => ?_
    rw [hentry k p hp]
    simp
  refine ⟨fun i => combination (.finite (o i)) ((((List.range m).zip ds).filter keep).map fun p =>
    (.finite (kept positions w i p.1), p.2.name, p.2.column)), ?_, fun i _ => ?_⟩
  · rw [ofMap, if_neg (by simp [hl]), List.zip_map', hl]
    show Except.ok (List.map _ (List.map _ _)) = _
    rw [List.map_map]
    congr 1
    refine List.map_congr_left fun i _ => ?_
    simp only [Function.comp_apply]
    congr 1
    refine List.map_congr_left fun p hp => ?_
    obtain ⟨hp, hk⟩ := List.mem_filter.mp hp
    have hwritten : keep p = true := hk
    rw [hentry i p hp, kept, if_neg fun h => ?_]
    rw [(hkeep p hp).mpr h] at hwritten
    cases hwritten
  · exact combination_spec (kept positions w i) (o i) keep hl fun p hp hk =>
      if_pos ((hkeep p hp).mp hk)

/-- Expressions written from the sharp rows of a matrix have the values they say, although
variables with a negligible column are left out of them. -/
theorem ofMap_spec (ds : List (Decision Extended)) (positions : List ℕ) (w : ℕ → ℕ → ℚ)
    (o : ℕ → ℚ) (hl : ds.length = m)
    (hw : ∀ i ∈ positions, ∀ j < m, Scalar.isSharp (Extended.finite (w i j)) = true) :
    ∃ e : ℕ → Affine Extended,
      ofMap (positions.map fun i => Bilinear.scalars m (w i))
        (positions.map fun i => .finite (o i)) ds = .ok (positions.map e)
      ∧ ∀ i ∈ positions, (e i).Within (Decision.Owns ds)
        ∧ ∀ y : Point, (e i).eval y.exact
          = .finite (∑ j ∈ range m, w i j * Decision.valuesAt ds y j + o i) := by
  obtain ⟨e, he, hspec⟩ := ofMap_kept ds positions w o hl
  refine ⟨e, he, fun i hi => ⟨(hspec i hi).1, fun y => ?_⟩⟩
  rw [(hspec i hi).2 y]
  congr 2
  refine sum_congr rfl fun j hj => ?_
  rw [kept_of_sharp hi (hw i hi j (mem_range.mp hj))]

end Affine

end RobustOpt
