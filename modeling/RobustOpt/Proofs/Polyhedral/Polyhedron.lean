import RobustOpt.Proofs.Duality
import RobustOpt.Proofs.Geometry
import RobustOpt.UncertaintySet.Polyhedral

/-!
# Polyhedra by rows

A polyhedron is a list of rows with right sides. What the rows of bounds and of set constraints add
to it is said once for each way of adding rows. A bound on a linear function over a polyhedron has a
dual certificate, and an exact solver answers the adversarial problem with a maximizer.

## Main definitions

* `Between`: a value between two bounds, which may be infinite.
* `Polyhedron.Contains`: the points of a polyhedron.
* `Polyhedron.Regular`, `Polyhedron.Rational`: rows that fit and finite data.

## Main statements

* `Polyhedron.contains_addBounds`: the rows of bounds say what the bounds say.
* `Polyhedron.exists_dual`, `Polyhedron.sum_le_of_dual`: bounds and dual certificates.
* `Polyhedron.maximizer_spec`: the answer of an exact solver is a worst case.
-/

namespace RobustOpt

open Finset Bilinear

/-- A value lies between two bounds. -/
def Between (lower upper : Extended) (q : ℚ) : Prop :=
  Scalar.le lower (.finite q) = true ∧ Scalar.le (.finite q) upper = true

theorem between_iff {lower upper : Extended} {w q : ℚ} (hw : Between lower upper w) :
    Between lower upper q ↔ (∀ l, lower = .finite l → l ≤ q) ∧ ∀ t, upper = .finite t → q ≤ t := by
  have hlow : ∀ {x : Extended} {w : ℚ}, Scalar.le x (.finite w) = true →
      (Scalar.le x (.finite q) = true ↔ ∀ l, x = .finite l → l ≤ q) := by
    intro x w hx
    cases x with
    | finite l => simp
    | negInf => simp [Scalar.le, Extended.lt]
    | posInf => simp [Scalar.le, Extended.lt, Extended.eq] at hx
    | undefined => simp [Scalar.le, Extended.lt, Extended.eq] at hx
  have hhigh : ∀ {x : Extended} {w : ℚ}, Scalar.le (.finite w) x = true →
      (Scalar.le (.finite q) x = true ↔ ∀ t, x = .finite t → q ≤ t) := by
    intro x w hx
    cases x with
    | finite l => simp
    | posInf => simp [Scalar.le, Extended.lt]
    | negInf => simp [Scalar.le, Extended.lt, Extended.eq] at hx
    | undefined => simp [Scalar.le, Extended.lt, Extended.eq] at hx
  exact and_congr (hlow hw.1) (hhigh hw.2)

namespace Polyhedron

/-- The first `n` entries satisfy all inequalities and equations. -/
def Contains (p : Polyhedron Extended) (n : ℕ) (u : ℕ → ℚ) : Prop :=
  (∀ r ∈ p.a.zip p.b, Scalar.le (Scalar.dot r.1 (scalars n u)) r.2 = true)
    ∧ ∀ r ∈ p.e.zip p.f, Scalar.eq (Scalar.dot r.1 (scalars n u)) r.2 = true

/-- As many right sides as rows, and rows of length `n`. -/
structure Regular (p : Polyhedron Extended) (n : ℕ) : Prop where
  inequalities : p.a.length = p.b.length
  equations : p.e.length = p.f.length
  rows : ∀ row ∈ p.a ++ p.e, row.length = n

/-- All coefficients and right sides are finite. -/
structure Rational (p : Polyhedron Extended) : Prop where
  rows : ∀ row ∈ p.a ++ p.e, ∀ x ∈ row, Scalar.isFinite x = true
  sides : ∀ x ∈ p.b ++ p.f, Scalar.isFinite x = true

variable {p : Polyhedron Extended} {n : ℕ} {row : List Extended} {b : Extended} {u : ℕ → ℚ}

/-! ## Rows added one after the other -/

theorem Rational.addInequality (hp : p.Rational) (hrow : ∀ x ∈ row, Scalar.isFinite x = true)
    (hb : Scalar.isFinite b = true) : (p.addInequality row b).Rational where
  rows := by
    simp only [Polyhedron.addInequality, List.mem_append, List.mem_singleton]
    rintro r ((hr | rfl) | hr)
    exacts [hp.rows r (by simp [hr]), hrow, hp.rows r (by simp [hr])]
  sides := by
    simp only [Polyhedron.addInequality, List.mem_append, List.mem_singleton]
    rintro x ((hx | rfl) | hx)
    exacts [hp.sides x (by simp [hx]), hb, hp.sides x (by simp [hx])]

theorem Rational.addEquation (hp : p.Rational) (hrow : ∀ x ∈ row, Scalar.isFinite x = true)
    (hb : Scalar.isFinite b = true) : (p.addEquation row b).Rational where
  rows := by
    simp only [Polyhedron.addEquation, List.mem_append, List.mem_singleton]
    rintro r (hr | hr | rfl)
    exacts [hp.rows r (by simp [hr]), hp.rows r (by simp [hr]), hrow]
  sides := by
    simp only [Polyhedron.addEquation, List.mem_append, List.mem_singleton]
    rintro x (hx | hx | rfl)
    exacts [hp.sides x (by simp [hx]), hp.sides x (by simp [hx]), hb]

theorem isFinite_of_mem_unit {n i : ℕ} {x : Extended} (h : x ∈ unit n i) :
    Scalar.isFinite x = true := by
  obtain ⟨j, -, rfl⟩ := List.mem_map.mp h
  split_ifs <;> rfl

/-- Bounds between which there is a number add finite rows. -/
theorem Rational.addBounds (hp : p.Rational) (i : ℕ) {lower upper : Extended} {w : ℚ}
    (hw : Between lower upper w) : (p.addBounds n i lower upper).Rational := by
  have hunit : ∀ x ∈ (unit n i : List Extended), Scalar.isFinite x = true := fun x hx =>
    isFinite_of_mem_unit hx
  have hneg : ∀ x ∈ (unit n i : List Extended).map (- ·), Scalar.isFinite x = true := by
    simp only [List.forall_mem_map]
    exact fun x hx => Extended.isFinite_neg.mpr (hunit x hx)
  unfold Polyhedron.addBounds
  split_ifs with heq hu hl hl
  · refine hp.addEquation hunit ?_
    obtain ⟨hlow, hhigh⟩ := hw
    cases upper with
    | finite t => rfl
    | negInf | undefined => cases hhigh
    | posInf =>
      cases lower with
      | posInf => cases hlow
      | finite | negInf | undefined => cases heq
  · exact (hp.addInequality hunit hu).addInequality hneg (Extended.isFinite_neg.mpr hl)
  · exact hp.addInequality hunit hu
  · exact hp.addInequality hneg (Extended.isFinite_neg.mpr hl)
  · exact hp

theorem Regular.addInequality (hp : p.Regular n) (hrow : row.length = n) :
    (p.addInequality row b).Regular n where
  inequalities := by simp [Polyhedron.addInequality, hp.inequalities]
  equations := hp.equations
  rows := by
    intro r hr
    simp only [Polyhedron.addInequality, List.mem_append, List.mem_singleton] at hr
    rcases hr with (hr | rfl) | hr
    exacts [hp.rows r (by simp [hr]), hrow, hp.rows r (by simp [hr])]

theorem Regular.addEquation (hp : p.Regular n) (hrow : row.length = n) :
    (p.addEquation row b).Regular n where
  inequalities := hp.inequalities
  equations := by simp [Polyhedron.addEquation, hp.equations]
  rows := by
    intro r hr
    simp only [Polyhedron.addEquation, List.mem_append, List.mem_singleton] at hr
    rcases hr with hr | hr | rfl
    exacts [hp.rows r (by simp [hr]), hp.rows r (by simp [hr]), hrow]

theorem contains_addInequality (hp : p.Regular n) :
    (p.addInequality row b).Contains n u
      ↔ p.Contains n u ∧ Scalar.le (Scalar.dot row (scalars n u)) b = true := by
  simp only [Contains, addInequality, List.zip_append hp.inequalities, List.mem_append,
    List.zip_cons_cons, List.zip_nil_right, List.mem_singleton, or_imp, forall_and, forall_eq]
  tauto

theorem contains_addEquation (hp : p.Regular n) :
    (p.addEquation row b).Contains n u
      ↔ p.Contains n u ∧ Scalar.eq (Scalar.dot row (scalars n u)) b = true := by
  simp only [Contains, addEquation, List.zip_append hp.equations, List.mem_append,
    List.zip_cons_cons, List.zip_nil_right, List.mem_singleton, or_imp, forall_and, forall_eq]
  tauto

@[simp] theorem length_unit (n i : ℕ) : (unit n i : List Extended).length = n := by simp [unit]

/-- A row with a single entry. -/
theorem dot_single {i : ℕ} (hi : i < n) (c : ℚ) (u : ℕ → ℚ) :
    Scalar.dot (scalars n fun j => if j = i then c else 0) (scalars n u) = .finite (c * u i) := by
  rw [dot_scalars fun _ => isFinite_of_mem_scalars]
  congr 1
  rw [sum_eq_single i]
  · simp [hi]
  · intro j hj hji
    simp [mem_range.mp hj, hji]
  · simp [hi]

theorem dot_unit {i : ℕ} (hi : i < n) (u : ℕ → ℚ) :
    Scalar.dot (unit n i) (scalars n u) = .finite (u i) := by
  have hunit : (unit n i : List Extended) = scalars n fun j => if j = i then 1 else 0 := by
    refine List.map_congr_left fun j _ => ?_
    by_cases h : j = i <;> simp [h, Extended.one_eq, Extended.zero_eq]
  rw [hunit, dot_single hi, one_mul]

theorem dot_neg_unit {i : ℕ} (hi : i < n) (u : ℕ → ℚ) :
    Scalar.dot ((unit n i).map (- ·)) (scalars n u) = .finite (-u i) := by
  have hunit : ((unit n i : List Extended).map (- ·))
      = scalars n fun j => if j = i then -1 else 0 := by
    rw [unit, List.map_map]
    refine List.map_congr_left fun j _ => ?_
    by_cases h : j = i <;> simp [h, Extended.one_eq, Extended.zero_eq]
  rw [hunit, dot_single hi, neg_one_mul]

theorem Regular.addBounds (hp : p.Regular n) (i : ℕ) (lower upper : Extended) :
    (p.addBounds n i lower upper).Regular n := by
  unfold Polyhedron.addBounds
  split_ifs
  · exact hp.addEquation (by simp)
  · exact (hp.addInequality (by simp)).addInequality (by simp)
  · exact hp.addInequality (by simp)
  · exact hp.addInequality (by simp)
  · exact hp

/-- The rows of the bounds of a parameter, if some value lies between them. -/
theorem contains_addBounds (hp : p.Regular n) {i : ℕ} (hi : i < n) {lower upper : Extended} {w : ℚ}
    (hw : Between lower upper w) :
    (p.addBounds n i lower upper).Contains n u ↔ p.Contains n u ∧ Between lower upper (u i) := by
  have hup : ∀ t, (p.addInequality (unit n i) (.finite t)).Contains n u
      ↔ p.Contains n u ∧ u i ≤ t := by
    intro t
    rw [contains_addInequality hp, dot_unit hi, Extended.le_finite, decide_eq_true_eq]
  have hdown : ∀ {p : Polyhedron Extended}, p.Regular n → ∀ l,
      (p.addInequality ((unit n i).map (- ·)) (-.finite l)).Contains n u
        ↔ p.Contains n u ∧ l ≤ u i := by
    intro p hp l
    rw [contains_addInequality hp, dot_neg_unit hi, Extended.neg_finite, Extended.le_finite,
      decide_eq_true_eq, neg_le_neg_iff]
  rw [between_iff hw]
  obtain ⟨hl, ht⟩ := hw
  cases lower with
  | posInf | undefined => simp [Scalar.le, Extended.lt, Extended.eq] at hl
  | negInf =>
    cases upper with
    | negInf | undefined => simp [Scalar.le, Extended.lt, Extended.eq] at ht
    | posInf => simp [addBounds, Scalar.eq, Extended.eq, Scalar.isFinite, Scalar.toRat?,
        Extended.toRat?]
    | finite t =>
      have : p.addBounds n i .negInf (.finite t) = p.addInequality (unit n i) (.finite t) := rfl
      simp [this, hup]
  | finite l =>
    cases upper with
    | negInf | undefined => simp [Scalar.le, Extended.lt, Extended.eq] at ht
    | posInf =>
      have : p.addBounds n i (.finite l) .posInf
        = p.addInequality ((unit n i).map (- ·)) (-.finite l) := rfl
      rw [this, hdown hp]
      simp
    | finite t =>
      unfold addBounds
      split_ifs with heq hf hf'
      · obtain rfl : l = t := by simpa using heq
        rw [contains_addEquation hp, dot_unit hi, Extended.eq_finite, decide_eq_true_eq]
        simp only [Extended.finite.injEq, forall_eq']
        exact and_congr_right fun _ => ⟨fun h => ⟨h.ge, h.le⟩, fun h => le_antisymm h.2 h.1⟩
      · rw [hdown (hp.addInequality (by simp)), hup]
        simp [and_assoc, and_comm]
      all_goals simp_all

/-- Inequalities with a common row, one for each side. -/
def addSides (p : Polyhedron Extended) (row : List Extended) (sides : List (Extended × Extended)) :
    Polyhedron Extended :=
  sides.foldl (fun p side => p.addInequality (row.map (side.1 * ·)) side.2) p

theorem Regular.addSides (hp : p.Regular n) (hrow : row.length = n)
    (sides : List (Extended × Extended)) : (p.addSides row sides).Regular n := by
  induction sides generalizing p with
  | nil => exact hp
  | cons side sides ih => exact ih (hp.addInequality (by simp [hrow]))

theorem Rational.addSides (hp : p.Rational) (hrow : ∀ x ∈ row, Scalar.isFinite x = true)
    {sides : List (Extended × Extended)}
    (hsides : ∀ side ∈ sides, IsSign side.1 ∧ Scalar.isFinite side.2 = true) :
    (p.addSides row sides).Rational := by
  induction sides generalizing p with
  | nil => exact hp
  | cons side sides ih =>
    obtain ⟨⟨hsign, hfin⟩, hsides⟩ := List.forall_mem_cons.mp hsides
    refine ih (hp.addInequality (List.forall_mem_map.mpr fun x hx => ?_) hfin) hsides
    exact Extended.isFinite_mul.mpr ⟨hsign.isFinite, hrow x hx⟩

theorem contains_addSides (hp : p.Regular n) (hrow : row.length = n)
    (sides : List (Extended × Extended)) :
    (p.addSides row sides).Contains n u ↔ p.Contains n u ∧ ∀ side ∈ sides,
      Scalar.le (Scalar.dot (row.map (side.1 * ·)) (scalars n u)) side.2 = true := by
  induction sides generalizing p with
  | nil => simp [addSides]
  | cons side sides ih =>
    have hstep : (p.addInequality (row.map (side.1 * ·)) side.2).Regular n :=
      hp.addInequality (by simp [hrow])
    rw [List.forall_mem_cons, ← and_assoc, ← contains_addInequality hp]
    exact ih hstep

theorem addConstraint_eq (p : Polyhedron Extended) (c : SetConstraint Extended)
    (row : List Extended) : p.addConstraint c row
      = if c.isEquality then p.addEquation row c.upper else p.addSides row c.sides := rfl

/-- A set constraint only adds rows. -/
theorem addConstraint_spec (hp : p.Regular n) (c : SetConstraint Extended) (hrow : row.length = n) :
    (p.addConstraint c row).Regular n
      ∧ ∀ u, (p.addConstraint c row).Contains n u → p.Contains n u := by
  rw [addConstraint_eq]
  split_ifs
  · exact ⟨hp.addEquation hrow, fun u hu => ((contains_addEquation hp).mp hu).1⟩
  · exact ⟨hp.addSides hrow c.sides, fun u hu => ((contains_addSides hp hrow c.sides).mp hu).1⟩

/-! ## Duality -/

/-- The entry of a row. -/
def entryAt (rows : List (List Extended)) (k i : ℕ) : ℚ := Extended.coord (rows.getD k []) i

theorem forall_mem_zip {β γ : Type} {l : List β} {r : List γ} (h : l.length = r.length) (d : β)
    (e : γ) (P : β → γ → Prop) :
    (∀ t ∈ l.zip r, P t.1 t.2) ↔ ∀ k < r.length, P (l.getD k d) (r.getD k e) := by
  rw [List.forall_mem_iff_getElem]
  simp only [List.length_zip, h, min_self, List.getElem_zip]
  refine forall₂_congr fun k hk => ?_
  rw [List.getD_eq_getElem _ _ (h ▸ hk), List.getD_eq_getElem _ _ hk]

/-- The rows of a rational polyhedron as inequalities and equations between rationals. -/
theorem contains_iff (hp : p.Regular n) (hr : p.Rational) : p.Contains n u
    ↔ (∀ k < p.b.length, ∑ i ∈ range n, entryAt p.a k i * u i ≤ Extended.coord p.b k)
      ∧ ∀ k < p.f.length, ∑ i ∈ range n, entryAt p.e k i * u i = Extended.coord p.f k := by
  unfold Contains
  rw [forall_mem_zip hp.inequalities [] 0 fun row b =>
      Scalar.le (Scalar.dot row (scalars n u)) b = true,
    forall_mem_zip hp.equations [] 0 fun row b =>
      Scalar.eq (Scalar.dot row (scalars n u)) b = true]
  refine and_congr (forall₂_congr fun k hk => ?_) (forall₂_congr fun k hk => ?_)
  · have hrow : ∀ x ∈ p.a.getD k [], Scalar.isFinite x = true :=
      hr.rows _ (List.mem_append_left _ (getD_mem (hp.inequalities ▸ hk)))
    rw [dot_scalars hrow, ← Extended.finite_coord fun x hx =>
      hr.sides x (List.mem_append_left _ hx), Extended.le_finite, decide_eq_true_eq]
    rfl
  · have hrow : ∀ x ∈ p.e.getD k [], Scalar.isFinite x = true :=
      hr.rows _ (List.mem_append_right _ (getD_mem (hp.equations ▸ hk)))
    rw [dot_scalars hrow, ← Extended.finite_coord fun x hx =>
      hr.sides x (List.mem_append_right _ hx), Extended.eq_finite, decide_eq_true_eq]
    rfl

/-- A linear function of the first `n` entries. -/
def functional (n : ℕ) (c : ℕ → ℚ) : (ℕ → ℚ) →ₗ[ℚ] ℚ :=
  ∑ i ∈ range n, c i • LinearMap.proj i

@[simp] theorem functional_apply (c : ℕ → ℚ) (u : ℕ → ℚ) :
    functional n c u = ∑ i ∈ range n, c i * u i := by
  simp [functional]

/-- A bound on a linear function over a polyhedron with a point has a dual certificate:
multipliers of the rows, nonnegative for the inequalities, that combine to the function and to no
more than the bound. -/
theorem exists_dual (hp : p.Regular n) (hr : p.Rational) {w : ℕ → ℚ} (hw : p.Contains n w)
    (c : ℕ → ℚ) (r : ℚ) (h : ∀ u, p.Contains n u → ∑ i ∈ range n, c i * u i ≤ r) :
    ∃ l m : ℕ → ℚ, (∀ k, 0 ≤ l k)
      ∧ (∀ i < n, c i = ∑ k ∈ range p.b.length, entryAt p.a k i * l k
        + ∑ k ∈ range p.f.length, entryAt p.e k i * m k)
      ∧ ∑ k ∈ range p.b.length, Extended.coord p.b k * l k
        + ∑ k ∈ range p.f.length, Extended.coord p.f k * m k ≤ r := by
  have hiff : ∀ u, p.Contains n u
      ↔ (∀ k : Fin p.b.length, functional n (entryAt p.a k) u ≤ Extended.coord p.b k)
        ∧ ∀ k : Fin p.f.length, functional n (entryAt p.e k) u = Extended.coord p.f k := by
    intro u
    simp only [contains_iff hp hr, functional_apply, Fin.forall_iff]
  obtain ⟨l, m, hl, hg, hbound⟩ := Duality.exists_multipliers
    (fun k : Fin p.b.length => functional n (entryAt p.a k)) (fun k => Extended.coord p.b k)
    (fun k : Fin p.f.length => functional n (entryAt p.e k)) (fun k => Extended.coord p.f k)
    (functional n c) r ⟨w, (hiff w).mp hw⟩
    fun u ha he => by simpa using h u ((hiff u).mpr ⟨ha, he⟩)
  refine ⟨fun k => if hk : k < p.b.length then l ⟨k, hk⟩ else 0,
    fun k => if hk : k < p.f.length then m ⟨k, hk⟩ else 0, fun k => ?_, fun i hi => ?_, ?_⟩
  · dsimp only
    split_ifs
    exacts [hl _, le_rfl]
  · have := LinearMap.congr_fun hg (Pi.single i 1)
    simp only [LinearMap.add_apply, LinearMap.sum_apply, LinearMap.smul_apply, functional_apply,
      smul_eq_mul, Pi.single_apply, mul_ite, mul_one, mul_zero, sum_ite_eq', mem_range, hi,
      if_true] at this
    rw [this, ← Fin.sum_univ_eq_sum_range, ← Fin.sum_univ_eq_sum_range]
    simp [mul_comm]
  · rw [← Fin.sum_univ_eq_sum_range, ← Fin.sum_univ_eq_sum_range]
    simpa [mul_comm] using hbound

/-- Multipliers of the rows certify a bound. -/
theorem sum_le_of_dual (hp : p.Regular n) (hr : p.Rational) (hu : p.Contains n u) {c l m : ℕ → ℚ}
    (hl : ∀ k < p.b.length, 0 ≤ l k)
    (hc : ∀ i < n, c i = ∑ k ∈ range p.b.length, entryAt p.a k i * l k
      + ∑ k ∈ range p.f.length, entryAt p.e k i * m k) :
    ∑ i ∈ range n, u i * c i ≤ ∑ k ∈ range p.b.length, Extended.coord p.b k * l k
      + ∑ k ∈ range p.f.length, Extended.coord p.f k * m k := by
  obtain ⟨hle, heq⟩ := (contains_iff hp hr).mp hu
  have hswap : ∀ (rows : List (List Extended)) (v : ℕ → ℚ) (K : ℕ),
      ∑ i ∈ range n, u i * ∑ k ∈ range K, entryAt rows k i * v k
        = ∑ k ∈ range K, (∑ i ∈ range n, entryAt rows k i * u i) * v k := by
    intro rows v K
    simp only [mul_sum, sum_mul]
    rw [sum_comm]
    exact sum_congr rfl fun k _ => sum_congr rfl fun i _ => by ring
  calc ∑ i ∈ range n, u i * c i
      = ∑ k ∈ range p.b.length, (∑ i ∈ range n, entryAt p.a k i * u i) * l k
        + ∑ k ∈ range p.f.length, (∑ i ∈ range n, entryAt p.e k i * u i) * m k := by
        rw [← hswap, ← hswap, ← sum_add_distrib]
        exact sum_congr rfl fun i hi => by rw [hc i (mem_range.mp hi), mul_add]
    _ ≤ _ := by
        refine add_le_add (sum_le_sum fun k hk => ?_) (sum_le_sum fun k hk => ?_)
        · exact mul_le_mul_of_nonneg_right (hle k (mem_range.mp hk)) (hl k (mem_range.mp hk))
        · rw [heq k (mem_range.mp hk)]

/-! ## The adversarial problem -/

/-- The left side of a row of the adversarial problem. -/
theorem finite_inner {row : List Extended} (h : ∀ x ∈ row, Scalar.isFinite x = true) (x : List ℚ) :
    Scalar.dot row (x.map .finite)
      = .finite (LinearProblem.inner (row.map Extended.rat) x) := by
  rw [Extended.dot_eq_pairing _ _ h (by simp), Extended.pairing, Master.inner_eq_sum,
    List.zipWith_map_left, List.zipWith_map_right]
  rfl

theorem map_finite_eq_scalars {x : List ℚ} (h : x.length = n) :
    x.map Extended.finite = scalars n fun i => x.getD i 0 := by
  rw [scalars, map_eq_map_range _ 0, h]

/-- The coefficients and the right side of a row are finite. -/
def IsFiniteRow (r : List Extended × Extended) : Prop :=
  (∀ x ∈ r.1, Scalar.isFinite x = true) ∧ Scalar.isFinite r.2 = true

/-- A row of the adversarial problem in rational numbers. -/
def rationalRow (equality : Bool) (r : List Extended × Extended) : LinearProblem.Row :=
  ⟨r.1.map Extended.rat, equality, r.2.rat⟩

theorem holds_rationalRow {r : List Extended × Extended} (hr : IsFiniteRow r) (x : List ℚ) :
    ((rationalRow false r).Holds x ↔ Scalar.le (Scalar.dot r.1 (x.map .finite)) r.2 = true)
      ∧ ((rationalRow true r).Holds x
        ↔ Scalar.eq (Scalar.dot r.1 (x.map .finite)) r.2 = true) := by
  rw [finite_inner hr.1, ← Extended.finite_rat hr.2, Extended.le_finite, Extended.eq_finite,
    decide_eq_true_eq, decide_eq_true_eq]
  exact ⟨Iff.rfl, Iff.rfl⟩

/-- Nothing but finite rows is made a problem of, of unknowns that are not restricted. -/
theorem problem_eq_ok {c : ℕ → ℚ} {lp : LinearProblem} (h : p.problem (scalars n c) = .ok lp) :
    (∀ r ∈ p.a.zip p.b, IsFiniteRow r) ∧ (∀ r ∈ p.e.zip p.f, IsFiniteRow r)
      ∧ lp = ⟨(scalars n c).map fun _ => ⟨false, false⟩,
        ((scalars n c).map Extended.rat).map (- ·),
        (p.a.zip p.b).map (rationalRow false) ++ (p.e.zip p.f).map (rationalRow true)⟩ := by
  obtain ⟨cost, hcost, h⟩ := bind_eq_ok.mp h
  obtain ⟨below, hbelow, h⟩ := bind_eq_ok.mp h
  obtain ⟨equal, hequal, h⟩ := bind_eq_ok.mp h
  have hrational : ∀ (x : Extended) (q : ℚ),
      Master.rational x = .ok q ↔ Scalar.isFinite x = true ∧ q = x.rat :=
    fun _ _ => Master.rational_eq_ok
  have hrow : ∀ (e : Bool) (r : List Extended × Extended) (row : LinearProblem.Row),
      (do return LinearProblem.Row.mk (← r.1.mapM Master.rational) e (← Master.rational r.2)
        : Except (Fault Extended) _) = .ok row ↔ IsFiniteRow r ∧ row = rationalRow e r := by
    intro e r row
    simp only [bind_eq_ok, pure_eq_ok, mapM_eq_ok_map hrational, hrational]
    constructor
    · rintro ⟨_, ⟨hr, rfl⟩, _, ⟨hb, rfl⟩, rfl⟩
      exact ⟨⟨hr, hb⟩, rfl⟩
    · rintro ⟨⟨hr, hb⟩, rfl⟩
      exact ⟨_, ⟨hr, rfl⟩, _, ⟨hb, rfl⟩, rfl⟩
  obtain ⟨-, rfl⟩ := (mapM_eq_ok_map hrational).mp hcost
  obtain ⟨hbf, rfl⟩ := (mapM_eq_ok_map (hrow false)).mp hbelow
  obtain ⟨hef, rfl⟩ := (mapM_eq_ok_map (hrow true)).mp hequal
  exact ⟨hbf, hef, (pure_eq_ok.mp h).symm⟩

/-- The negated function at a point. -/
theorem inner_negated {x : List ℚ} (hx : x.length = n) (c : ℕ → ℚ) :
    LinearProblem.inner (((scalars n c).map Extended.rat).map (- ·)) x
      = -∑ i ∈ range n, c i * x.getD i 0 := by
  have hneg : ((scalars n c).map Extended.rat).map (- ·)
      = (scalars n fun i => -c i).map Extended.rat := by
    simp [scalars, List.map_map, Function.comp_def]
  have hfin : ∀ y ∈ scalars n fun i => -c i, Scalar.isFinite y = true := fun _ =>
    isFinite_of_mem_scalars
  have hdot := finite_inner hfin x
  rw [map_finite_eq_scalars hx, dot_scalars fun _ => isFinite_of_mem_scalars] at hdot
  rw [hneg, ← Extended.finite.inj hdot, ← sum_neg_distrib]
  exact sum_congr rfl fun i hi => by rw [coord_scalars _ (mem_range.mp hi), neg_mul]

/-- The adversarial problem is about the points of the polyhedron, with the negated function as
its cost. -/
theorem problem_spec {c : ℕ → ℚ} {lp : LinearProblem} (h : p.problem (scalars n c) = .ok lp)
    (x : List ℚ) :
    (lp.Feasible x ↔ x.length = n ∧ p.Contains n fun i => x.getD i 0)
      ∧ (x.length = n →
        LinearProblem.inner lp.cost x = -∑ i ∈ range n, c i * x.getD i 0) := by
  obtain ⟨hbf, hef, rfl⟩ := problem_eq_ok h
  refine ⟨?_, fun hlen => inner_negated hlen c⟩
  have hfree : ∀ t ∈ ((scalars n c).map fun _ => LinearProblem.Unknown.mk false false).zip x,
      t.1.Admits t.2 := by
    intro t ht
    obtain ⟨-, -, h⟩ := List.mem_map.mp (List.of_mem_zip ht).1
    rw [← h]
    exact ⟨fun h => (by cases h), fun h => (by cases h)⟩
  rw [LinearProblem.Feasible, List.length_map, length_scalars]
  refine and_congr_right fun hlen => (and_iff_left hfree).trans ?_
  rw [List.forall_mem_append, List.forall_mem_map, List.forall_mem_map]
  unfold Contains
  rw [← map_finite_eq_scalars hlen]
  exact and_congr (forall₂_congr fun r hr => (holds_rationalRow (hbf r hr) x).1)
    (forall₂_congr fun r hr => (holds_rationalRow (hef r hr) x).2)

/-- The answer of an exact solver is a worst case. -/
theorem maximizer_spec {solver : Solver Extended} (hs : solver.Exact) {c : ℕ → ℚ}
    {us : List Extended} (h : p.maximizer (scalars n c) solver = .ok us) :
    ∃ v, us = scalars n v ∧ p.Contains n v
      ∧ ∀ w, p.Contains n w → ∑ i ∈ range n, w i * c i ≤ ∑ i ∈ range n, v i * c i := by
  unfold Polyhedron.maximizer at h
  split_ifs at h
  · cases h
  obtain ⟨-, -, h⟩ := bind_eq_ok.mp h
  obtain ⟨lp, hlp, h⟩ := bind_eq_ok.mp h
  obtain ⟨o, ho, h⟩ := bind_eq_ok.mp h
  cases o with
  | infeasible => exact absurd h (by simp)
  | unbounded => exact absurd h (by simp)
  | optimal value x =>
    obtain rfl := pure_eq_ok.mp h
    obtain ⟨hfeas, hval, hbest⟩ := hs lp _ ho
    obtain ⟨hlen, hcont⟩ := (problem_spec hlp x).1.mp hfeas
    refine ⟨fun i => x.getD i 0, map_finite_eq_scalars hlen, hcont, fun w hw => ?_⟩
    let y := (List.range n).map w
    have hylen : y.length = n := by simp [y]
    have hget : ∀ i ∈ range n, y.getD i 0 = w i := by
      intro i hi
      rw [List.getD_eq_getElem _ _ (by simpa [y] using hi)]
      simp [y]
    have hy : lp.Feasible y := by
      refine (problem_spec hlp y).1.mpr ⟨hylen, ?_⟩
      have : scalars n (fun i => y.getD i 0) = scalars n w :=
        List.map_congr_left fun i hi => congrArg Extended.finite (hget i (by simpa using hi))
      simpa only [Contains, this] using hw
    have hle := hbest y hy
    rw [hval, (problem_spec hlp x).2 hlen, (problem_spec hlp y).2 hylen, neg_le_neg_iff] at hle
    calc ∑ i ∈ range n, w i * c i = ∑ i ∈ range n, c i * y.getD i 0 :=
          sum_congr rfl fun i hi => by rw [hget i hi, mul_comm]
      _ ≤ ∑ i ∈ range n, c i * x.getD i 0 := hle
      _ = _ := sum_congr rfl fun i _ => mul_comm _ _

end Polyhedron

end RobustOpt
