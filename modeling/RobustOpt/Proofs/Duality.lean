import Mathlib

/-!
# Linear inequalities and their consequences

An inequality that holds wherever finitely many linear inequalities and equations do is a
combination of them, with nonnegative multipliers for the inequalities. This is what makes the
dual of a worst case equivalent to it.

## Main definitions

* `rows`: a system whose right sides are scaled by a further coordinate.

## Main statements

* `exists_nonneg_combination`: consequences of homogeneous inequalities.
* `exists_multipliers`: consequences of inequalities and equations that have a solution.
-/

namespace RobustOpt

namespace Duality

variable {K V ι κ : Type*} [Field K] [LinearOrder K] [IsStrictOrderedRing K] [AddCommGroup V]
  [Module K V]

omit [LinearOrder K] [IsStrictOrderedRing K] in
/-- A combination over a set, with one more term at a new index. -/
theorem sum_insert_smul {M : Type*} [AddCommMonoid M] [Module K M] [DecidableEq ι] {s : Finset ι}
    {j : ι} (hj : j ∉ s) (y : ι → K) (q : K) (a : ι → M) :
    ∑ i ∈ insert j s, (if i = j then q else y i) • a i = q • a j + ∑ i ∈ s, y i • a i := by
  rw [Finset.sum_insert hj, if_pos rfl]
  congr 1
  refine Finset.sum_congr rfl fun i hi => ?_
  rw [if_neg (ne_of_mem_of_not_mem hi hj)]

section Elimination

variable {s : Finset ι} {j : ι} {a : ι → V →ₗ[K] K} {b : V →ₗ[K] K}

/-- If `a j` is needed for `b` to be nonpositive, there is a direction that raises it by one, raises
`b` and raises none of the others. -/
theorem exists_direction [DecidableEq ι] (h : ∀ x, (∀ i ∈ insert j s, a i x ≤ 0) → b x ≤ 0)
    (hs : ¬ ∀ x, (∀ i ∈ s, a i x ≤ 0) → b x ≤ 0) :
    ∃ e, a j e = 1 ∧ (∀ i ∈ s, a i e ≤ 0) ∧ 0 < b e := by
  push Not at hs
  obtain ⟨x, hx, hbx⟩ := hs
  have hjx : 0 < a j x := by
    by_contra hle
    have := h x (by simpa using ⟨not_lt.mp hle, hx⟩)
    linarith
  refine ⟨(a j x)⁻¹ • x, by simp [hjx.ne'], fun i hi => ?_, ?_⟩
  · simpa using mul_nonpos_of_nonneg_of_nonpos (inv_nonneg.mpr hjx.le) (hx i hi)
  · simpa using mul_pos (inv_pos.mpr hjx) hbx

/-- Multiples of `a j` taken from all functionals make them vanish in such a direction. What follows
from them then follows without `a j`. -/
theorem nonpos_of_eliminated [DecidableEq ι] (h : ∀ x, (∀ i ∈ insert j s, a i x ≤ 0) → b x ≤ 0)
    {e : V} (he : a j e = 1) {z : V} (hz : ∀ i ∈ s, (a i - a i e • a j) z ≤ 0) :
    (b - b e • a j) z ≤ 0 := by
  have hj : a j (z - a j z • e) = 0 := by simp [he]
  -- the point is moved along the direction to where `a j` vanishes
  have hmoved : b (z - a j z • e) ≤ 0 := by
    refine h _ fun i hi => ?_
    rcases Finset.mem_insert.mp hi with rfl | hi
    · exact hj.le
    · have := hz i hi
      simp only [LinearMap.sub_apply, LinearMap.smul_apply, smul_eq_mul] at this
      simp only [map_sub, map_smul, smul_eq_mul]
      linarith
  simp only [map_sub, map_smul, smul_eq_mul] at hmoved
  simp only [LinearMap.sub_apply, LinearMap.smul_apply, smul_eq_mul]
  linarith

omit [LinearOrder K] [IsStrictOrderedRing K] in
/-- A combination of eliminated functionals, with the multiplier of `a j` that makes up for what was
taken from them. -/
theorem eq_sum_of_eliminated [DecidableEq ι] (hj : j ∉ s) {e : V} {y : ι → K}
    (h : b - b e • a j = ∑ i ∈ s, y i • (a i - a i e • a j)) :
    b = ∑ i ∈ insert j s, (if i = j then b e - ∑ i ∈ s, y i * a i e else y i) • a i := by
  have hrest : ∑ i ∈ s, y i • (a i - a i e • a j)
      = ∑ i ∈ s, y i • a i - (∑ i ∈ s, y i * a i e) • a j := by
    simp only [smul_sub, smul_smul, Finset.sum_sub_distrib, Finset.sum_smul]
  rw [sum_insert_smul hj, sub_smul, sub_add_eq_add_sub, add_sub_assoc, ← hrest, ← h]
  exact (add_sub_cancel _ _).symm

end Elimination

/-- A functional that is nonpositive wherever the functionals `a i` are is a nonnegative
combination of them. The induction is on the set of functionals: either the last one is not
needed, or a direction in which it alone is positive lets it be eliminated from the others. -/
theorem exists_nonneg_combination (s : Finset ι) (a : ι → V →ₗ[K] K) (b : V →ₗ[K] K)
    (h : ∀ x, (∀ i ∈ s, a i x ≤ 0) → b x ≤ 0) :
    ∃ y : ι → K, (∀ i, 0 ≤ y i) ∧ b = ∑ i ∈ s, y i • a i := by
  classical
  induction s using Finset.induction_on generalizing a b with
  | empty =>
    refine ⟨0, fun _ => le_rfl, ?_⟩
    ext x
    have hpos : b x ≤ 0 := h x (by simp)
    have hneg : b (-x) ≤ 0 := h (-x) (by simp)
    rw [map_neg] at hneg
    simpa using le_antisymm hpos (by linarith)
  | insert j s hj ih =>
    by_cases hs : ∀ x, (∀ i ∈ s, a i x ≤ 0) → b x ≤ 0
    · obtain ⟨y, hy, hb⟩ := ih a b hs
      refine ⟨fun i => if i = j then 0 else y i, fun i => ?_, ?_⟩
      · dsimp only
        split_ifs
        exacts [le_rfl, hy i]
      · rw [sum_insert_smul hj, zero_smul, zero_add, hb]
    · obtain ⟨e, hej, he, hbe⟩ := exists_direction h hs
      obtain ⟨y, hy, hb⟩ := ih (fun i => a i - a i e • a j) (b - b e • a j)
        fun z hz => nonpos_of_eliminated h hej hz
      have hsum : ∑ i ∈ s, y i * a i e ≤ 0 := Finset.sum_nonpos fun i hi =>
        mul_nonpos_of_nonneg_of_nonpos (hy i) (he i hi)
      refine ⟨_, fun i => ?_, eq_sum_of_eliminated hj hb⟩
      split_ifs
      exacts [by linarith, hy i]

/-! ## Right sides -/

/-- What stays bounded along a ray does not grow. -/
theorem nonpos_of_ray {p q r : K} (h : ∀ s, 0 ≤ s → p + s * q ≤ r) : q ≤ 0 := by
  by_contra hq
  rw [not_le] at hq
  have hp : p ≤ r := by simpa using h 0 le_rfl
  have hfar := h ((r - p + 1) / q) (div_nonneg (by linarith) hq.le)
  rw [div_mul_cancel₀ _ hq.ne'] at hfar
  linarith

section Systems

variable {a : ι → V →ₗ[K] K} {c : ι → K} {e : κ → V →ₗ[K] K} {d : κ → K} {g : V →ₗ[K] K} {r : K}

/-- A consequence of a system that has a solution is one of the system with right sides `t` times as
large, also if `t` is zero: a direction in which the solutions go on forever. -/
theorem le_of_scaled (hne : ∃ u, (∀ i, a i u ≤ c i) ∧ ∀ k, e k u = d k)
    (h : ∀ u, (∀ i, a i u ≤ c i) → (∀ k, e k u = d k) → g u ≤ r) {v : V} {t : K} (ht : 0 ≤ t)
    (ha : ∀ i, a i v ≤ c i * t) (he : ∀ k, e k v = d k * t) : g v ≤ r * t := by
  rcases ht.eq_or_lt with rfl | ht
  · obtain ⟨u, hau, heu⟩ := hne
    rw [mul_zero]
    have hray : ∀ s : K, 0 ≤ s → g u + s * g v ≤ r := by
      intro s hs
      have hstep : g (u + s • v) ≤ r := by
        refine h _ (fun i => ?_) fun k => ?_
        · have hv : a i v ≤ 0 := by simpa using ha i
          have := mul_nonpos_of_nonneg_of_nonpos hs hv
          simpa using by linarith [hau i]
        · simp [he, heu]
      simpa using hstep
    exact nonpos_of_ray hray
  · have hu : g (t⁻¹ • v) ≤ r := by
      refine h _ (fun i => ?_) fun k => ?_
      · rw [map_smul, smul_eq_mul, inv_mul_le_iff₀ ht, mul_comm]
        exact ha i
      · rw [map_smul, smul_eq_mul, he, mul_comm, mul_assoc, mul_inv_cancel₀ ht.ne', mul_one]
    rwa [map_smul, smul_eq_mul, inv_mul_le_iff₀ ht, mul_comm] at hu

/-- The rows of a system over a second coordinate that scales its right sides, which is not
negative. An equation counts as two inequalities. -/
def rows (a : ι → V →ₗ[K] K) (c : ι → K) (e : κ → V →ₗ[K] K) (d : κ → K) :
    (ι ⊕ κ) ⊕ (κ ⊕ Unit) → V × K →ₗ[K] K :=
  let first := LinearMap.fst K V K
  let scale := LinearMap.snd K V K
  Sum.elim (Sum.elim (fun i => a i ∘ₗ first - c i • scale) fun k => e k ∘ₗ first - d k • scale)
    (Sum.elim (fun k => -(e k ∘ₗ first - d k • scale)) fun _ => -scale)

omit [LinearOrder K] [IsStrictOrderedRing K] in
/-- A combination of the rows at a point. -/
theorem sum_rows [Fintype ι] [Fintype κ] (y : (ι ⊕ κ) ⊕ (κ ⊕ Unit) → K) (v : V) (t : K) :
    (∑ p, y p • rows a c e d p) (v, t) = ∑ i, y (.inl (.inl i)) * (a i v - c i * t)
      + ∑ k, (y (.inl (.inr k)) - y (.inr (.inl k))) * (e k v - d k * t)
      - y (.inr (.inr ())) * t := by
  simp only [Fintype.sum_sum_type, rows, Sum.elim_inl, Sum.elim_inr, LinearMap.sub_apply,
    LinearMap.add_apply, LinearMap.sum_apply, LinearMap.smul_apply, LinearMap.neg_apply,
    LinearMap.comp_apply, LinearMap.fst_apply, LinearMap.snd_apply, smul_eq_mul, mul_neg,
    Finset.sum_neg_distrib, Finset.univ_unique, Finset.sum_singleton, sub_mul,
    Finset.sum_sub_distrib, PUnit.default_eq_unit]
  ring

/-- If a system of inequalities `a i · ≤ c i` and equations `e k · = d k` has a solution and
`g · ≤ r` holds for all its solutions, then `g` is a combination of the left sides, nonnegative on
the inequalities, and the same combination of the right sides is at most `r`. -/
theorem exists_multipliers [Fintype ι] [Fintype κ] (a : ι → V →ₗ[K] K) (c : ι → K)
    (e : κ → V →ₗ[K] K) (d : κ → K) (g : V →ₗ[K] K) (r : K)
    (hne : ∃ u, (∀ i, a i u ≤ c i) ∧ ∀ k, e k u = d k)
    (h : ∀ u, (∀ i, a i u ≤ c i) → (∀ k, e k u = d k) → g u ≤ r) :
    ∃ (l : ι → K) (m : κ → K), (∀ i, 0 ≤ l i) ∧ g = ∑ i, l i • a i + ∑ k, m k • e k
      ∧ ∑ i, l i * c i + ∑ k, m k * d k ≤ r := by
  have hrows : ∀ x, (∀ p ∈ Finset.univ, rows a c e d p x ≤ 0) →
      (g ∘ₗ LinearMap.fst K V K - r • LinearMap.snd K V K) x ≤ 0 := by
    rintro ⟨v, t⟩ hx
    have hle : ∀ k, e k v - d k * t ≤ 0 := fun k => hx (.inl (.inr k)) (Finset.mem_univ _)
    have hge : ∀ k, -(e k v - d k * t) ≤ 0 := fun k => hx (.inr (.inl k)) (Finset.mem_univ _)
    have ht : -t ≤ 0 := hx (.inr (.inr ())) (Finset.mem_univ _)
    exact sub_nonpos.mpr (le_of_scaled hne h (neg_nonpos.mp ht)
      (fun i => sub_nonpos.mp (hx (.inl (.inl i)) (Finset.mem_univ _)))
      fun k => sub_eq_zero.mp (le_antisymm (hle k) (neg_nonpos.mp (hge k))))
  obtain ⟨y, hy, hg⟩ := exists_nonneg_combination Finset.univ _ _ hrows
  have hvalue : ∀ v t, g v - r * t = _ := fun v t =>
    (LinearMap.congr_fun hg (v, t)).trans (sum_rows y v t)
  refine ⟨fun i => y (.inl (.inl i)), fun k => y (.inl (.inr k)) - y (.inr (.inl k)),
    fun i => hy _, ?_, ?_⟩
  · ext v
    simpa using hvalue v 0
  · have hone := hvalue 0 1
    simp only [map_zero, mul_one, zero_sub, mul_neg, Finset.sum_neg_distrib] at hone
    linarith [hy (.inr (.inr ()))]

end Systems

end Duality

end RobustOpt
