import Mathlib.Algebra.Order.BigOperators.Group.Finset
import Mathlib.Algebra.Order.Ring.Abs
import RobustOpt.Proofs.Geometry
import RobustOpt.UncertaintySet.Budget

/-!
# The worst case over a budget set

The values of a budget set are the nominal ones plus shares of the deviations, no share exceeding
one and all of them together not exceeding the budget. Spending the budget on the largest
contributions first is optimal, since a price of the budget certifies it.

## Main definitions

* `Budget.Region`: the values the parameters can take.
* `Budget.spent`: the rational shares of the greedy worst case.
* `Budget.greedy`: these shares for a linear function of the parameters.
* `Budget.excess`: the most a linear function exceeds its nominal value by.

## Main statements

* `Budget.exists_price`: a price of the budget certifies the greedy shares.
* `Budget.worstCase_spec`: the computed worst case maximizes a linear function over the set.
-/

namespace RobustOpt

open Finset Bilinear

namespace Budget

/-! ## Spending a budget -/

/-- One, minus one or zero, by the sign of a rational number. -/
def signOf (q : ℚ) : ℚ := if 0 < q then 1 else if q < 0 then -1 else 0

theorem sign_finite (q : ℚ) : Scalar.sign (Extended.finite q) = .finite (signOf q) := by
  unfold Scalar.sign signOf
  simp only [Extended.zero_eq, Extended.lt_finite, Extended.isNaN_finite, decide_eq_true_eq,
    Bool.false_eq_true, if_false]
  split_ifs <;> rfl

theorem mul_signOf (q : ℚ) : q * signOf q = |q| := by
  unfold signOf
  split_ifs with h1 h2
  · rw [mul_one, abs_of_pos h1]
  · rw [mul_neg_one, abs_of_neg h2]
  · simp [le_antisymm (not_lt.mp h1) (not_lt.mp h2)]

theorem abs_signOf {q : ℚ} (h : q ≠ 0) : |signOf q| = 1 := by
  unfold signOf
  split_ifs with h1 h2
  · simp
  · simp
  · exact absurd (le_antisymm (not_lt.mp h1) (not_lt.mp h2)) h

/-- The shares after a budget was spent on contributions `k` along a ranking, each with the sign of
its coefficient `c`. -/
def spent (c k : ℕ → ℚ) : List ℕ → ℚ → (ℕ → ℚ) → ℕ → ℚ
  | [], _, z => z
  | i :: rest, b, z =>
    if b ≤ 0 ∨ k i ≤ 0 then z
    else spent c k rest (b - min 1 b) (Function.update z i (min 1 b * signOf (c i)))

theorem set_scalars (n i : ℕ) (z : ℕ → ℚ) (q : ℚ) :
    (scalars n z).set i (.finite q) = scalars n (Function.update z i q) := by
  refine List.ext_getElem (by simp) fun j hj _ => ?_
  rw [List.getElem_set]
  by_cases h : i = j
  · subst h
    simp [scalars]
  · simp [scalars, h, Function.update_of_ne (Ne.symm h)]

/-- The program spends the budget as rational arithmetic does. -/
theorem spend_eq {n : ℕ} (c k : ℕ → ℚ) (l : List ℕ) (hl : ∀ i ∈ l, i < n) (b : ℚ) (z : ℕ → ℚ) :
    spend (scalars n c) (scalars n k) l (.finite b) (scalars n z)
      = scalars n (spent c k l b z) := by
  induction l generalizing b z with
  | nil => rfl
  | cons i rest ih =>
    have hi : i < n := hl i (by simp)
    have hmin : Scalar.min (1 : Extended) (.finite b) = .finite (min 1 b) := by
      rw [Scalar.min, Extended.one_eq, Extended.lt_finite]
      by_cases h : b < 1
      · simp [h, min_eq_right h.le]
      · simp [h, min_eq_left (not_lt.mp h)]
    rw [spend, spent, getD_scalars k hi, getD_scalars c hi, Extended.zero_eq, Extended.le_finite,
      Extended.le_finite]
    by_cases h : b ≤ 0 ∨ k i ≤ 0
    · rw [if_pos h, if_pos (by simpa using h)]
    · rw [if_neg h, if_neg (by simpa using h), hmin, sign_finite]
      dsimp only
      rw [Extended.finite_mul, set_scalars, Extended.finite_sub]
      exact ih (fun j hj => hl j (by simp [hj])) _ _

section Spent

variable {c k : ℕ → ℚ} {l : List ℕ} {b : ℚ} {z : ℕ → ℚ}

theorem spent_of_notMem {i : ℕ} (hi : i ∉ l) : spent c k l b z i = z i := by
  induction l generalizing b z with
  | nil => rfl
  | cons j rest ih =>
    rw [spent]
    split_ifs
    · rfl
    · rw [ih fun h => hi (by simp [h]), Function.update_of_ne fun h => hi (by simp [h])]

theorem spent_of_nonpos (hb : b ≤ 0) : spent c k l b z = z := by
  cases l with
  | nil => rfl
  | cons i rest => rw [spent, if_pos (.inl hb)]

/-- After the first share of a ranking was spent, there are none for the rest yet. -/
theorem update_eq_zero {j : ℕ} (hj : j ∉ l) (hz : ∀ i ∈ j :: l, z i = 0) (q : ℚ) :
    ∀ i ∈ l, Function.update z j q i = 0 := by
  intro i hi
  rw [Function.update_of_ne (ne_of_mem_of_not_mem hi hj), hz i (List.mem_cons_of_mem _ hi)]

/-- Without shares nothing is contributed. -/
theorem sum_mul_abs_eq_zero (k : ℕ → ℚ) (hz : ∀ i ∈ l, z i = 0) :
    (l.map fun i => k i * |z i|).sum = 0 := by
  refine List.sum_eq_zero (List.forall_mem_map.mpr fun i hi => ?_)
  rw [hz i hi, abs_zero, mul_zero]

/-- At a price that no contribution exceeds there is no excess. -/
theorem sum_excess_eq_zero {π : ℚ} (hπ : ∀ i ∈ l, k i ≤ π) :
    (l.map fun i => max 0 (k i - π)).sum = 0 :=
  List.sum_eq_zero (List.forall_mem_map.mpr fun i hi => max_eq_left (sub_nonpos.mpr (hπ i hi)))

/-- What a share can be: nothing, everything, or what is left of the budget after whole shares. -/
theorem spent_mem (hl : l.Nodup) (hz : ∀ i ∈ l, z i = 0) {i : ℕ} (hi : i ∈ l) :
    spent c k l b z i = 0 ∨ (0 < k i ∧ ∃ t, 0 < t ∧ t ≤ 1
      ∧ spent c k l b z i = t * signOf (c i) ∧ (t = 1 ∨ (t < 1 ∧ ∃ m : ℤ, b = m + t))) := by
  induction l generalizing b z with
  | nil => cases hi
  | cons j rest ih =>
    obtain ⟨hj, hrest⟩ := List.nodup_cons.mp hl
    rw [spent]
    split_ifs with hstop
    · exact .inl (hz i hi)
    obtain ⟨hb, hk⟩ := not_or.mp hstop
    rw [not_le] at hb hk
    rcases List.mem_cons.mp hi with rfl | hi
    · refine .inr ⟨hk, min 1 b, lt_min one_pos hb, min_le_left _ _, ?_, ?_⟩
      · rw [spent_of_notMem hj, Function.update_self]
      · rcases le_or_gt 1 b with h | h
        · exact .inl (min_eq_left h)
        · exact .inr (by rw [min_eq_right h.le]; exact ⟨h, 0, by simp⟩)
    · have hz' := update_eq_zero hj hz (min 1 b * signOf (c j))
      rcases le_or_gt 1 b with h | h
      · rw [min_eq_left h] at hz' ⊢
        refine (ih hrest hz' hi).imp_right fun ⟨hk, t, ht, ht1, hval, hleft⟩ =>
          ⟨hk, t, ht, ht1, hval, hleft.imp_right fun ⟨hlt, m, hm⟩ => ⟨hlt, m + 1, ?_⟩⟩
        push_cast
        linarith
      · rw [min_eq_right h.le, sub_self] at *
        rw [spent_of_nonpos le_rfl]
        exact .inl (hz' i hi)

theorem abs_spent_le (hl : l.Nodup) (hz : ∀ i ∈ l, z i = 0) {i : ℕ} (hi : i ∈ l) :
    |spent c k l b z i| ≤ 1 := by
  have hsign : |signOf (c i)| ≤ 1 := by
    by_cases h : c i = 0
    · simp [signOf, h]
    · exact (abs_signOf h).le
  obtain h | ⟨-, t, ht, ht1, h, -⟩ := spent_mem (c := c) (k := k) (b := b) hl hz hi
  · simp [h]
  · rw [h, abs_mul, abs_of_pos ht]
    exact mul_le_one₀ ht1 (abs_nonneg _) hsign

/-- The shares do not exceed the budget. -/
theorem sum_abs_spent_le (hl : l.Nodup) (hz : ∀ i ∈ l, z i = 0) (hb : 0 ≤ b) :
    (l.map fun i => |spent c k l b z i|).sum ≤ b := by
  induction l generalizing b z with
  | nil => simpa using hb
  | cons j rest ih =>
    obtain ⟨hj, hrest⟩ := List.nodup_cons.mp hl
    simp only [spent]
    split_ifs with hstop
    · rw [List.map_congr_left (g := fun _ => (0 : ℚ)) fun i hi => by rw [hz i hi, abs_zero]]
      simpa using hb
    · have hz' := update_eq_zero hj hz (min 1 b * signOf (c j))
      have hmin : 0 ≤ min 1 b := le_min zero_le_one hb
      have hhead : |min 1 b * signOf (c j)| ≤ min 1 b := by
        by_cases h : c j = 0
        · simpa [signOf, h] using hb
        · rw [abs_mul, abs_signOf h, mul_one, abs_of_nonneg hmin]
      have := ih hrest hz' (sub_nonneg.mpr (min_le_right 1 b))
      rw [List.map_cons, List.sum_cons, spent_of_notMem hj, Function.update_self]
      linarith

/-- A price of the budget certifies the shares of the greedy worst case: budget and excess
contributions, at this price, add up to what the shares contribute. It does not exceed any bound on
the contributions. The induction follows the ranking; while whole shares are spent the price of the
rest will do, and the contribution of a partial share is the price. -/
theorem exists_price (hl : l.Nodup) (hz : ∀ i ∈ l, z i = 0)
    (hsorted : l.Pairwise fun i j => k j ≤ k i) (hc : ∀ i ∈ l, 0 < k i → c i ≠ 0) (hb : 0 ≤ b)
    {M : ℚ} (hM : 0 ≤ M) (hk : ∀ i ∈ l, k i ≤ M) :
    ∃ π, 0 ≤ π ∧ π ≤ M ∧ b * π + (l.map fun i => max 0 (k i - π)).sum
      = (l.map fun i => k i * |spent c k l b z i|).sum := by
  induction l generalizing b z M with
  | nil => exact ⟨0, le_rfl, hM, by simp⟩
  | cons j rest ih =>
    obtain ⟨hj, hrest⟩ := List.nodup_cons.mp hl
    obtain ⟨hhead, htail⟩ := List.pairwise_cons.mp hsorted
    have htop : ∀ i ∈ j :: rest, k i ≤ k j := by
      intro i hi
      rcases List.mem_cons.mp hi with rfl | hi
      exacts [le_rfl, hhead i hi]
    by_cases hkj : k j ≤ 0
    · refine ⟨0, le_rfl, hM, ?_⟩
      simp only [spent, if_pos (Or.inr hkj : b ≤ 0 ∨ k j ≤ 0)]
      rw [sum_mul_abs_eq_zero k hz, sum_excess_eq_zero fun i hi => (htop i hi).trans hkj]
      simp
    · rw [not_le] at hkj
      by_cases hb0 : b ≤ 0
      · refine ⟨k j, hkj.le, hk j (by simp), ?_⟩
        simp only [spent, if_pos (Or.inl hb0 : b ≤ 0 ∨ k j ≤ 0)]
        rw [sum_mul_abs_eq_zero k hz, sum_excess_eq_zero htop, le_antisymm hb0 hb]
        simp
      · have hgo : ¬ (b ≤ 0 ∨ k j ≤ 0) := by simp [hkj, not_le.mp hb0]
        have hz' := update_eq_zero hj hz (min 1 b * signOf (c j))
        have habs : |min 1 b * signOf (c j)| = min 1 b := by
          rw [abs_mul, abs_signOf (hc j (by simp) hkj), mul_one,
            abs_of_nonneg (le_min zero_le_one hb)]
        obtain ⟨π, hπ, hπk, hsum⟩ := ih hrest hz' htail (fun i hi => hc i (by simp [hi]))
          (sub_nonneg.mpr (min_le_right 1 b)) hkj.le fun i hi => hhead i hi
        simp only [spent, if_neg hgo]
        rcases le_or_gt 1 b with h | h
        · refine ⟨π, hπ, hπk.trans (hk j (by simp)), ?_⟩
          rw [min_eq_left h] at hsum habs ⊢
          rw [List.map_cons, List.sum_cons, List.map_cons, List.sum_cons, spent_of_notMem hj,
            Function.update_self, habs, ← hsum, max_eq_right (sub_nonneg.mpr hπk)]
          ring
        · refine ⟨k j, hkj.le, hk j (by simp), ?_⟩
          rw [min_eq_right h.le, sub_self] at *
          rw [sum_excess_eq_zero htop, spent_of_nonpos le_rfl, List.map_cons, List.sum_cons,
            Function.update_self, habs, sum_mul_abs_eq_zero k hz']
          simp [mul_comm]

end Spent

/-! ## Ranking -/

/-- The ranking lists all positions, larger contributions first. -/
theorem ranking_spec (n : ℕ) (k : ℕ → ℚ) :
    (ranking (scalars n k)).Perm (List.range n)
      ∧ (ranking (scalars n k)).Pairwise fun i j => k j ≤ k i := by
  have heq : ranking (scalars n k) = (List.range n).mergeSort fun i j => decide (k j ≤ k i) := by
    rw [ranking, zip_range_scalars, ← List.map_mergeSort (r := fun i j => decide (k j ≤ k i)), List.map_map]
    · exact List.map_id _
    · intro i _ j _
      simp
  rw [heq]
  refine ⟨List.mergeSort_perm _ _, ?_⟩
  refine (List.pairwise_mergeSort (fun a b c hab hbc => ?_) (fun a b => ?_) _).imp fun h => by
    simpa using h
  · simp only [decide_eq_true_eq] at *
    exact hbc.trans hab
  · simpa using le_total (k b) (k a)

/-! ## The worst case -/

/-- Whether nominal value and deviation of a parameter are finite. -/
def Counts (nominal deviation : List Extended) (i : ℕ) : Prop :=
  Scalar.isFinite (nominal.getD i 0) = true ∧ Scalar.isFinite (deviation.getD i 0) = true

/-- The values of `n` parameters: each that counts differs from its nominal value by a share of
its deviation, no share exceeds one and all of them together do not exceed the budget. -/
def Region (gamma : ℚ) (nominal deviation : List Extended) (n : ℕ) (u : ℕ → ℚ) : Prop :=
  ∃ z : ℕ → ℚ, (∀ i < n, |z i| ≤ 1) ∧ ∑ i ∈ range n, |z i| ≤ gamma
    ∧ ∀ i < n, Counts nominal deviation i →
      u i = Extended.coord nominal i + Extended.coord deviation i * z i

/-- The contribution of a parameter with coefficient `c`. -/
def gain (deviation : List Extended) (c : ℕ → ℚ) (i : ℕ) : ℚ :=
  Extended.coord deviation i * |c i|

theorem sum_map_range (n : ℕ) (f : ℕ → ℚ) :
    ((List.range n).map f).sum = ∑ i ∈ range n, f i := by
  induction n with
  | zero => simp
  | succ n ih => rw [List.range_succ, List.map_append, List.sum_append, ih, sum_range_succ]; simp

variable {n : ℕ} {nominal deviation : List Extended} {c : ℕ → ℚ} {gamma : ℚ}

theorem contributions_eq (hlen : deviation.length = n)
    (hc : ∀ i < n, ¬ Counts nominal deviation i → c i = 0) :
    List.zipWith contribution (scalars n c) deviation = scalars n (gain deviation c) := by
  refine List.ext_getElem (by simp [hlen]) fun i hi _ => ?_
  have hi : i < n := by simpa [hlen] using hi
  have hlt : i < deviation.length := hlen ▸ hi
  rw [List.getElem_zipWith]
  simp only [scalars, List.getElem_map, List.getElem_range, contribution, Extended.isZero_finite]
  by_cases h : c i = 0
  · simp [h, gain, Extended.zero_eq]
  · have hcount : Counts nominal deviation i := by
      by_contra hn
      exact h (hc i hi hn)
    have hget : deviation[i] = .finite (Extended.coord deviation i) := by
      rw [← List.getD_eq_getElem deviation 0 hlt]
      exact (Extended.finite_rat hcount.2).symm
    rw [hget]
    simp [h, gain]

/-- The shares of the greedy worst case. -/
def greedy (gamma : ℚ) (deviation : List Extended) (n : ℕ) (c : ℕ → ℚ) : ℕ → ℚ :=
  spent c (gain deviation c) (ranking (scalars n (gain deviation c))) gamma fun _ => 0

theorem shares_eq (hlen : deviation.length = n)
    (hc : ∀ i < n, ¬ Counts nominal deviation i → c i = 0) :
    shares (.finite gamma) (scalars n c) deviation = scalars n (greedy gamma deviation n c) := by
  have hzero : ((scalars n c).map fun _ => (0 : Extended)) = scalars n fun _ => 0 := by
    simp [scalars, Function.comp_def, Extended.zero_eq]
  rw [shares, contributions_eq hlen hc, hzero]
  refine spend_eq _ _ _ (fun i hi => ?_) _ _
  exact List.mem_range.mp ((ranking_spec n _).1.mem_iff.mp hi)

section Greedy

variable (gamma : ℚ) (deviation : List Extended) (n : ℕ) (c : ℕ → ℚ)

theorem mem_ranking {k : ℕ → ℚ} {i : ℕ} : i ∈ ranking (scalars n k) ↔ i < n := by
  rw [(ranking_spec n k).1.mem_iff, List.mem_range]

theorem nodup_ranking (k : ℕ → ℚ) : (ranking (scalars n k)).Nodup :=
  (ranking_spec n k).1.nodup_iff.mpr List.nodup_range

theorem sum_ranking (k f : ℕ → ℚ) :
    ((ranking (scalars n k)).map f).sum = ∑ i ∈ range n, f i := by
  rw [((ranking_spec n k).1.map f).sum_eq, sum_map_range]

/-- A greedy share is nothing, everything, or what is left after whole shares, with the sign of its
coefficient. -/
theorem greedy_mem {i : ℕ} (hi : i < n) :
    greedy gamma deviation n c i = 0 ∨ ∃ t, 0 < t ∧ greedy gamma deviation n c i = t * signOf (c i)
      ∧ (t = 1 ∨ (t < 1 ∧ ∃ m : ℤ, gamma = m + t)) :=
  (spent_mem (nodup_ranking n _) (fun _ _ => rfl) ((mem_ranking n).mpr hi)).imp_right
    fun ⟨_, t, ht, _, hshare, hleft⟩ => ⟨t, ht, hshare, hleft⟩

theorem abs_greedy_le {i : ℕ} (hi : i < n) : |greedy gamma deviation n c i| ≤ 1 :=
  abs_spent_le (nodup_ranking n _) (fun _ _ => rfl) ((mem_ranking n).mpr hi)

theorem sum_abs_greedy_le (hg : 0 ≤ gamma) :
    ∑ i ∈ range n, |greedy gamma deviation n c i| ≤ gamma := by
  rw [← sum_ranking n (gain deviation c)]
  exact sum_abs_spent_le (nodup_ranking n _) (fun _ _ => rfl) hg

/-- A share has the sign of its coefficient, so it contributes all it can. -/
theorem gain_mul_abs_greedy {i : ℕ} (hi : i < n) :
    gain deviation c i * |greedy gamma deviation n c i|
      = Extended.coord deviation i * (greedy gamma deviation n c i * c i) := by
  obtain h | ⟨t, ht, h, -⟩ := greedy_mem gamma deviation n c hi
  · simp [h]
  · by_cases hci : c i = 0
    · simp [gain, hci]
    · rw [h, abs_mul, abs_of_pos ht, abs_signOf hci, gain, ← mul_signOf]
      ring

/-- A price of the budget certifies the greedy shares. -/
theorem exists_price_greedy (hg : 0 ≤ gamma) :
    ∃ π, 0 ≤ π ∧ gamma * π + ∑ i ∈ range n, max 0 (gain deviation c i - π)
      = ∑ i ∈ range n, gain deviation c i * |greedy gamma deviation n c i| := by
  have htotal : ∀ i ∈ ranking (scalars n (gain deviation c)),
      gain deviation c i ≤ ∑ j ∈ range n, |gain deviation c j| := fun i hi =>
    (le_abs_self _).trans (single_le_sum (f := fun j => |gain deviation c j|)
      (fun _ _ => abs_nonneg _) (mem_range.mpr ((mem_ranking n).mp hi)))
  obtain ⟨π, hπ, -, hprice⟩ := exists_price (c := c) (nodup_ranking n _) (z := fun _ => 0)
    (fun _ _ => rfl) (ranking_spec n _).2 (fun i _ hk hc => by simp [gain, hc] at hk) hg
    (sum_nonneg fun _ _ => abs_nonneg _) htotal
  rw [sum_ranking, sum_ranking] at hprice
  exact ⟨π, hπ, hprice⟩

end Greedy

/-- Amounts covered by a price and excesses contribute no more than the budget at this price and
all excesses. -/
theorem sum_covered_le {t p y : ℕ → ℚ} {π : ℚ} (hπ : 0 ≤ π) (hp : ∀ i < n, 0 ≤ p i)
    (ht : ∀ i < n, t i ≤ π + p i) (hy : ∀ i < n, |y i| ≤ 1) (hsum : ∑ i ∈ range n, |y i| ≤ gamma) :
    ∑ i ∈ range n, t i * |y i| ≤ gamma * π + ∑ i ∈ range n, p i := by
  calc ∑ i ∈ range n, t i * |y i|
      ≤ ∑ i ∈ range n, (π * |y i| + p i) := by
        refine sum_le_sum fun i hi => ?_
        have hi := mem_range.mp hi
        have h1 := mul_le_mul_of_nonneg_right (ht i hi) (abs_nonneg (y i))
        have h2 := mul_le_mul_of_nonneg_left (hy i hi) (hp i hi)
        linarith
    _ = (∑ i ∈ range n, |y i|) * π + ∑ i ∈ range n, p i := by
        rw [sum_add_distrib, sum_mul]
        simp only [mul_comm]
    _ ≤ gamma * π + ∑ i ∈ range n, p i :=
        add_le_add (mul_le_mul_of_nonneg_right hsum hπ) le_rfl

/-- The entries of the worst case. -/
theorem worstCase_eq {s : Budget Extended} (hdata : s.data = some (nominal, deviation))
    (hgamma : s.gamma = .finite gamma) (hnom : nominal.length = n) (hdev : deviation.length = n)
    (hc : ∀ i < n, ¬ Counts nominal deviation i → c i = 0) :
    s.worstCase (scalars n c) = .ok ((List.range n).map fun i => nominal.getD i 0
      + if c i = 0 then 0 else deviation.getD i 0 * .finite (greedy gamma deviation n c i)) := by
  rw [worstCase, hdata]
  dsimp only
  rw [if_neg (by simp [hdev]), hgamma, shares_eq hdev hc]
  congr 1
  refine List.ext_getElem (by simp [hnom, hdev]) fun i hi _ => ?_
  have hi' : i < n := by
    rw [List.length_zipWith, hnom] at hi
    exact (lt_min_iff.mp hi).1
  rw [List.getElem_map, List.getElem_range, List.getD_eq_getElem nominal _ (hnom ▸ hi'),
    List.getD_eq_getElem deviation _ (hdev ▸ hi')]
  simp [scalars]

theorem worstCase_eq_ok {s : Budget Extended} (hdata : s.data = some (nominal, deviation))
    (hgamma : s.gamma = .finite gamma) (hnom : nominal.length = n) (hdev : deviation.length = n)
    (hc : ∀ i < n, ¬ Counts nominal deviation i → c i = 0) {us : List Extended}
    (h : s.worstCase (scalars n c) = .ok us) : us = (List.range n).map fun i =>
      nominal.getD i 0
        + if c i = 0 then 0 else deviation.getD i 0 * .finite (greedy gamma deviation n c i) :=
  Except.ok.inj (h.symm.trans (worstCase_eq hdata hgamma hnom hdev hc))

/-- The share of a parameter without a coefficient is left unused. -/
def used (gamma : ℚ) (deviation : List Extended) (n : ℕ) (c : ℕ → ℚ) (i : ℕ) : ℚ :=
  if c i = 0 then 0 else greedy gamma deviation n c i

theorem abs_used_le (gamma : ℚ) (deviation : List Extended) (n : ℕ) (c : ℕ → ℚ) (i : ℕ) :
    |used gamma deviation n c i| ≤ |greedy gamma deviation n c i| := by
  unfold used
  split_ifs
  · simp
  · exact le_rfl

/-- The nominal part of a linear function. -/
theorem sum_shifted (hc : ∀ i < n, ¬ Counts nominal deviation i → c i = 0) {u z : ℕ → ℚ}
    (hu : ∀ i < n, Counts nominal deviation i →
      u i = Extended.coord nominal i + Extended.coord deviation i * z i) :
    ∑ i ∈ range n, u i * c i = ∑ i ∈ range n, Extended.coord nominal i * c i
      + ∑ i ∈ range n, Extended.coord deviation i * (z i * c i) := by
  rw [← sum_add_distrib]
  refine sum_congr rfl fun i hi => ?_
  have hi := mem_range.mp hi
  by_cases hcount : Counts nominal deviation i
  · rw [hu i hi hcount]
    ring
  · simp [hc i hi hcount]

/-- The most a linear function exceeds its nominal value by. -/
def excess (gamma : ℚ) (deviation : List Extended) (n : ℕ) (c : ℕ → ℚ) : ℚ :=
  ∑ i ∈ range n, gain deviation c i * |greedy gamma deviation n c i|

/-- Values with the greedy shares belong to the set and attain the excess. -/
theorem region_used (hg : 0 ≤ gamma) (hc : ∀ i < n, ¬ Counts nominal deviation i → c i = 0)
    {u : ℕ → ℚ} (hu : ∀ i < n, Counts nominal deviation i →
      u i = Extended.coord nominal i + Extended.coord deviation i * used gamma deviation n c i) :
    Region gamma nominal deviation n u
      ∧ ∑ i ∈ range n, u i * c i = ∑ i ∈ range n, Extended.coord nominal i * c i
        + excess gamma deviation n c := by
  have hsum := sum_abs_greedy_le gamma deviation n c hg
  refine ⟨⟨used gamma deviation n c,
    fun i hi => (abs_used_le _ _ _ _ i).trans (abs_greedy_le gamma deviation n c hi),
    (sum_le_sum fun i _ => abs_used_le gamma deviation n c i).trans hsum, hu⟩, ?_⟩
  rw [sum_shifted hc hu]
  congr 1
  refine sum_congr rfl fun i hi => ?_
  rw [gain_mul_abs_greedy gamma deviation n c (mem_range.mp hi), used]
  split_ifs with h0
  · simp [h0]
  · rfl

/-- No values of the set exceed the nominal value of a linear function by more than the excess. -/
theorem sum_le_of_region (hg : 0 ≤ gamma)
    (hpos : ∀ i < n, Counts nominal deviation i → 0 ≤ Extended.coord deviation i)
    (hc : ∀ i < n, ¬ Counts nominal deviation i → c i = 0) {w : ℕ → ℚ}
    (hw : Region gamma nominal deviation n w) :
    ∑ i ∈ range n, w i * c i
      ≤ ∑ i ∈ range n, Extended.coord nominal i * c i + excess gamma deviation n c := by
  obtain ⟨π, hπ, hprice⟩ := exists_price_greedy gamma deviation n c hg
  obtain ⟨y, hy, hysum, hwy⟩ := hw
  rw [sum_shifted hc hwy, excess, ← hprice]
  refine add_le_add le_rfl ?_
  calc ∑ i ∈ range n, Extended.coord deviation i * (y i * c i)
      ≤ ∑ i ∈ range n, gain deviation c i * |y i| := by
        refine sum_le_sum fun i hi => ?_
        have hi := mem_range.mp hi
        by_cases hcount : Counts nominal deviation i
        · rw [gain, mul_assoc, ← abs_mul, mul_comm (c i)]
          exact mul_le_mul_of_nonneg_left (le_abs_self _) (hpos i hi hcount)
        · simp [gain, hc i hi hcount]
    _ ≤ gamma * π + ∑ i ∈ range n, max 0 (gain deviation c i - π) :=
        sum_covered_le hπ (fun i _ => le_max_left _ _)
          (fun i _ => by linarith [le_max_right 0 (gain deviation c i - π)]) hy hysum

/-- The worst case of a budget set maximizes a linear function over it. -/
theorem worstCase_spec {s : Budget Extended} (hdata : s.data = some (nominal, deviation))
    (hgamma : s.gamma = .finite gamma) (hg : 0 ≤ gamma) (hnom : nominal.length = n)
    (hdev : deviation.length = n)
    (hpos : ∀ i < n, Counts nominal deviation i → 0 ≤ Extended.coord deviation i)
    (hc : ∀ i < n, ¬ Counts nominal deviation i → c i = 0) {us : List Extended}
    (h : s.worstCase (scalars n c) = .ok us) :
    ∃ v, us.map Scalar.toFinite = scalars n v ∧ Region gamma nominal deviation n v
      ∧ ∀ w, Region gamma nominal deviation n w →
        ∑ i ∈ range n, w i * c i ≤ ∑ i ∈ range n, v i * c i := by
  obtain rfl := worstCase_eq_ok hdata hgamma hnom hdev hc h
  let entry : ℕ → Extended := fun i => nominal.getD i 0
    + if c i = 0 then 0 else deviation.getD i 0 * .finite (greedy gamma deviation n c i)
  have hmap : ((List.range n).map entry).map Scalar.toFinite
      = scalars n fun i => (Scalar.toFinite (entry i)).rat := by
    simp [scalars, Extended.finite_rat (Extended.isFinite_toFinite _)]
  have hshifted : ∀ i < n, Counts nominal deviation i → (Scalar.toFinite (entry i)).rat
      = Extended.coord nominal i + Extended.coord deviation i * used gamma deviation n c i := by
      intro i _ hcount
      have hnomi : nominal.getD i 0 = .finite (Extended.coord nominal i) :=
        (Extended.finite_rat hcount.1).symm
      have hdevi : deviation.getD i 0 = .finite (Extended.coord deviation i) :=
        (Extended.finite_rat hcount.2).symm
      simp only [entry, hnomi, hdevi, used]
      split_ifs <;> simp [Extended.zero_eq]
  obtain ⟨hregion, hvalue⟩ := region_used hg hc hshifted
  refine ⟨_, hmap, hregion, fun w hw => ?_⟩
  rw [hvalue]
  exact sum_le_of_region hg hpos hc hw

end Budget

end RobustOpt
