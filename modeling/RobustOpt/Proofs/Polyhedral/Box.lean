import RobustOpt.Proofs.Polyhedral.Declaration

/-!
# The vertex of a box

The vertex that the signs of the coefficients select exists unless some coefficient points where
there is no bound. A single such coefficient makes the linear function unbounded over the box, and
without one the vertex is a maximizer. Only a parameter without coefficient and without bounds has
no value in it.

## Main definitions

* `Polyhedral.Open`: there is no bound in the direction of a coefficient.

## Main statements

* `Polyhedral.boxVertex_eq_error`: the first open direction is reported.
* `Polyhedral.boxVertex_optimal`: there is a vertex exactly where there is a maximum, and it is one.
-/

namespace RobustOpt

open Finset Bilinear

namespace Polyhedral

/-- There is no bound in the direction of a coefficient. -/
def Open (c : ℚ) (lower upper : Extended) : Prop :=
  0 < c ∧ Scalar.isFinite upper = false ∨ c < 0 ∧ Scalar.isFinite lower = false

theorem vertexEntry_eq_error {i : ℕ} {c : ℚ} {l t : Extended} {e : Fault Extended} :
    vertexEntry i (.finite c) l t = .error e ↔ Open c l t ∧ e = .unboundedWorstCase i := by
  unfold vertexEntry Open
  rcases lt_trichotomy c 0 with hc | rfl | hc
  · cases hl : Scalar.isFinite l <;>
      simp [hc, hc.ne, hc.not_gt, Extended.zero_eq, hl, eq_comm (a := e)]
  · simp
  · cases ht : Scalar.isFinite t <;>
      simp [hc, hc.ne', hc.not_gt, Extended.zero_eq, ht, eq_comm (a := e)]

variable {n : ℕ} {lower upper : List Extended} {w : ℕ → ℚ} {c : ℕ → ℚ}

/-- The vertex is refused for the first open direction. -/
theorem boxVertex_eq_error (hl : lower.length = n) (hu : upper.length = n) {e : Fault Extended}
    (h : boxVertex lower upper (scalars n c) = .error e) :
    ∃ i < n, e = .unboundedWorstCase i ∧ Open (c i) (lower.getD i 0) (upper.getD i 0)
      ∧ ∀ j < i, ¬ Open (c j) (lower.getD j 0) (upper.getD j 0) := by
  have hget : ∀ {xs : List Extended} {i : ℕ}, xs.length = n → i < n →
      xs[i]? = some (xs.getD i 0) := by
    intro xs i hxs hi
    simp [hxs, hi]
  obtain ⟨i, hi, he, hbefore⟩ := exists_of_mapM_eq_error h
  have hi : i < n := by simpa using hi
  simp only [scalars, List.getElem_zip, List.getElem_range, List.getElem_map] at he hbefore
  rw [hget hl hi, hget hu hi] at he
  obtain ⟨hopen, rfl⟩ := vertexEntry_eq_error.mp he
  refine ⟨i, hi, rfl, hopen, fun j hj hopen => ?_⟩
  obtain ⟨r, hr⟩ := hbefore j hj
  rw [hget hl (hj.trans hi), hget hu (hj.trans hi)] at hr
  cases (vertexEntry_eq_error.mpr ⟨hopen, rfl⟩).symm.trans hr

/-- One bound is enough for a free value. -/
theorem isFinite_freeValue {l t : Extended}
    (h : Scalar.isFinite l = true ∨ Scalar.isFinite t = true) :
    Scalar.isFinite (freeValue l t) = true := by
  unfold freeValue
  split_ifs with hboth hl ht
  · rw [Bool.and_eq_true] at hboth
    obtain ⟨a, rfl⟩ := Extended.isFinite_iff.mp hboth.1
    obtain ⟨b, rfl⟩ := Extended.isFinite_iff.mp hboth.2
    rfl
  · exact hl
  · exact ht
  · exact absurd h (by simp [hl, ht])

/-- An entry of a vertex is a value of its parameter, or undefined if there is neither a
coefficient nor a bound. -/
theorem vertexEntry_cases {i : ℕ} {c : ℚ} {l t x : Extended} (hb : Ordered l t)
    (h : vertexEntry i (.finite c) l t = .ok x) :
    Scalar.isFinite x = true ∨ x = .undefined ∧ c = 0 ∧ l = .negInf ∧ t = .posInf := by
  obtain ⟨hx, hfin⟩ := vertexEntry_eq_ok h
  by_cases hc : c = 0
  · rw [if_pos hc] at hx
    rw [hx]
    rcases hb.below with rfl | hl
    · rcases hb.above with rfl | ht
      · exact .inr ⟨rfl, hc, rfl, rfl⟩
      · exact .inl (isFinite_freeValue (.inr ht))
    · exact .inl (isFinite_freeValue (.inl hl))
  · exact .inl (hfin hc)

/-- Moving along an open direction stays between the bounds. -/
theorem Open.between {c : ℚ} {l t : Extended} {w : ℚ} (hopen : Open c l t)
    (hw : Between l t w) {d : ℚ} (hd : 0 ≤ c * d) : Between l t (w + d) := by
  obtain ⟨hlow, hhigh⟩ := (between_iff hw).mp hw
  rw [between_iff hw]
  rcases hopen with ⟨hc, hfin⟩ | ⟨hc, hfin⟩
  · have hd : 0 ≤ d := nonneg_of_mul_nonneg_right hd hc
    refine ⟨fun a ha => by linarith [hlow a ha], fun a ha => ?_⟩
    rw [ha] at hfin
    cases hfin
  · have hd : d ≤ 0 := by nlinarith
    refine ⟨fun a ha => ?_, fun a ha => by linarith [hhigh a ha]⟩
    rw [ha] at hfin
    cases hfin

/-- An open direction lets the function grow beyond any bound. -/
theorem exists_beyond (hb : ∀ i < n, Ordered (lower.getD i 0) (upper.getD i 0)) {i : ℕ} (hi : i < n)
    (hopen : Open (c i) (lower.getD i 0) (upper.getD i 0)) (b : ℚ) :
    ∃ w, WithinBounds n lower upper w ∧ b < ∑ i ∈ range n, c i * w i := by
  obtain ⟨w, hw⟩ := exists_withinBounds hb
  have hc : c i ≠ 0 := by
    rcases hopen with ⟨hc, -⟩ | ⟨hc, -⟩
    exacts [hc.ne', hc.ne]
  -- far enough along the direction to make up for the value at `w`
  obtain ⟨d, hd⟩ : ∃ d, c i * d = |b - ∑ j ∈ range n, c j * w j| + 1 :=
    ⟨(|b - ∑ j ∈ range n, c j * w j| + 1) / c i, mul_div_cancel₀ _ hc⟩
  refine ⟨fun j => w j + if j = i then d else 0, fun j hj => ?_, ?_⟩
  · by_cases hji : j = i
    · subst hji
      simpa using hopen.between (hw j hj) (by rw [hd]; positivity)
    · simpa [hji] using hw j hj
  · have hsum : ∑ j ∈ range n, c j * (w j + if j = i then d else 0)
        = ∑ j ∈ range n, c j * w j + c i * d := by
      simp only [mul_add, sum_add_distrib, mul_ite, mul_zero]
      rw [sum_ite_eq' (range n) i, if_pos (mem_range.mpr hi)]
    rw [hsum, hd]
    linarith [le_abs_self (b - ∑ j ∈ range n, c j * w j)]

/-- The vertex is refused exactly if the function is unbounded over the box. -/
theorem exists_error_iff_unbounded (hl : lower.length = n) (hu : upper.length = n)
    (hb : ∀ i < n, Ordered (lower.getD i 0) (upper.getD i 0)) :
    (∃ e, boxVertex lower upper (scalars n c) = .error e)
      ↔ ∀ b, ∃ w, WithinBounds n lower upper w ∧ b < ∑ i ∈ range n, c i * w i := by
  constructor
  · rintro ⟨e, he⟩ b
    obtain ⟨i, hi, -, hopen, -⟩ := boxVertex_eq_error hl hu he
    exact exists_beyond hb hi hopen b
  · intro hunbounded
    obtain ⟨w, hw⟩ := exists_withinBounds hb
    cases hus : boxVertex lower upper (scalars n c) with
    | error e => exact ⟨e, rfl⟩
    | ok us =>
      -- the value at the vertex would be a bound
      obtain ⟨v, -, -, hmax⟩ := boxVertex_spec hw hus
      obtain ⟨w', hw', hlt⟩ := hunbounded (∑ i ∈ range n, v i * c i)
      have := hmax w' hw'
      simp only [mul_comm] at this hlt
      exact absurd this hlt.not_ge

/-- An entry of a vertex is the value it counts as, or it is undefined, counts as zero, and has no
coefficient and no bounds. -/
theorem entry_of_boxVertex (hb : ∀ i < n, Ordered (lower.getD i 0) (upper.getD i 0))
    {us : List Extended} (hus : boxVertex lower upper (scalars n c) = .ok us) {v : ℕ → ℚ}
    (hv : us.map Scalar.toFinite = scalars n v) {i : ℕ} (hi : i < n) :
    us.getD i 0 = .finite (v i) ∨ us.getD i 0 = .undefined ∧ v i = 0 ∧ c i = 0
      ∧ lower.getD i 0 = .negInf ∧ upper.getD i 0 = .posInf := by
  obtain ⟨hlen, hentry⟩ := boxVertex_eq_ok hus
  have hvi : Scalar.toFinite (us.getD i 0) = .finite (v i) := by
    have hget := congrArg (·[i]?) hv
    simpa [scalars, hi, hlen] using hget
  rcases vertexEntry_cases (hb i hi) (hentry i hi) with hfin | ⟨hx, hc, hlow, hhigh⟩
  · obtain ⟨a, ha⟩ := Extended.isFinite_iff.mp hfin
    rw [ha, Extended.toFinite_finite] at hvi
    exact .inl (ha.trans hvi)
  · rw [hx] at hvi
    exact .inr ⟨hx, (Extended.finite.inj hvi).symm, hc, hlow, hhigh⟩

/-- The vertex of a box exists unless the function is unbounded over the box, and is a maximizer in
which only parameters without coefficient and without bounds are undefined, and count as zero. -/
theorem boxVertex_optimal (hl : lower.length = n) (hu : upper.length = n)
    (hb : ∀ i < n, Ordered (lower.getD i 0) (upper.getD i 0)) (c : ℕ → ℚ) :
    ((∃ e, boxVertex lower upper (scalars n c) = .error e)
        ↔ ∀ b, ∃ w, WithinBounds n lower upper w ∧ b < ∑ i ∈ range n, c i * w i)
    ∧ (∀ e, boxVertex lower upper (scalars n c) = .error e → e.category = .value)
    ∧ ∀ us, boxVertex lower upper (scalars n c) = .ok us →
      ∃ v, us.map Scalar.toFinite = scalars n v ∧ WithinBounds n lower upper v
        ∧ (∀ w, WithinBounds n lower upper w →
          ∑ i ∈ range n, c i * w i ≤ ∑ i ∈ range n, c i * v i)
        ∧ ∀ i < n, us.getD i 0 = .finite (v i) ∨ us.getD i 0 = .undefined ∧ v i = 0 ∧ c i = 0
          ∧ lower.getD i 0 = .negInf ∧ upper.getD i 0 = .posInf := by
  obtain ⟨w, hw⟩ := exists_withinBounds hb
  refine ⟨exists_error_iff_unbounded hl hu hb, fun e he => ?_, fun us hus => ?_⟩
  · obtain ⟨i, -, rfl, -⟩ := boxVertex_eq_error hl hu he
    rfl
  · obtain ⟨v, hv, hbox, hmax⟩ := boxVertex_spec hw hus
    refine ⟨v, hv, hbox, fun w hw => ?_, fun i hi => entry_of_boxVertex hb hus hv hi⟩
    simpa only [mul_comm] using hmax w hw

end Polyhedral

/-! ## Bounds on one side only -/

namespace Freight

/-- A load of at least two, one of at most five, one between one and four and one that is free. -/
def lower : List Extended := [.finite 2, .negInf, .finite 1, .negInf]

def upper : List Extended := [.posInf, .finite 5, .finite 4, .posInf]

theorem ordered : ∀ i < 4, Polyhedral.Ordered (lower.getD i 0) (upper.getD i 0) := by
  intro i hi
  have : i = 0 ∨ i = 1 ∨ i = 2 ∨ i = 3 := by omega
  rcases this with rfl | rfl | rfl | rfl <;> exact ⟨by decide, by decide, by decide +kernel⟩

/-- A rate for each load. -/
def rates (a b c d : ℚ) (i : ℕ) : ℚ := [a, b, c, d].getD i 0

end Freight

/-- Rates with a vertex, in which the free load counts as zero, and rates that are unbounded. -/
theorem freight_boxVertex_optimal :
    (∀ i < 4, Polyhedral.Ordered (Freight.lower.getD i 0) (Freight.upper.getD i 0))
    ∧ (∃ v, [.finite 2, .finite 5, .finite (5 / 2), .finite 0] = scalars 4 v
        ∧ ∀ w, Polyhedral.WithinBounds 4 Freight.lower Freight.upper w →
          ∑ i ∈ range 4, Freight.rates (-1) 3 0 0 i * w i
            ≤ ∑ i ∈ range 4, Freight.rates (-1) 3 0 0 i * v i)
    ∧ ∀ b, ∃ w, Polyhedral.WithinBounds 4 Freight.lower Freight.upper w
        ∧ b < ∑ i ∈ range 4, Freight.rates 1 3 0 0 i * w i := by
  have hus : Polyhedral.boxVertex Freight.lower Freight.upper
      (scalars 4 (Freight.rates (-1) 3 0 0))
      = .ok [.finite 2, .finite 5, .finite (5 / 2), .undefined] :=
    toOption_eq_some.mp (by decide +kernel)
  have herror : Polyhedral.boxVertex Freight.lower Freight.upper
      (scalars 4 (Freight.rates 1 3 0 0)) = .error (.unboundedWorstCase 0) := by rfl
  obtain ⟨-, -, hok⟩ := Polyhedral.boxVertex_optimal (n := 4) rfl rfl Freight.ordered
    (Freight.rates (-1) 3 0 0)
  obtain ⟨hiff, -, -⟩ := Polyhedral.boxVertex_optimal (n := 4) rfl rfl Freight.ordered
    (Freight.rates 1 3 0 0)
  obtain ⟨v, hv, -, hmax, -⟩ := hok _ hus
  exact ⟨Freight.ordered, ⟨v, .trans (by decide +kernel) hv, hmax⟩, hiff.mp ⟨_, herror⟩⟩

end RobustOpt
