import RobustOpt.Proofs.Budget.WorstCase

/-!
# The reformulation of a budget set

Over a budget set a side exceeds its nominal value by at most the price of the budget and what the
contributions of the parameters exceed this price by. Auxiliary variables for the price, for the
contributions and for what they exceed it by make this a system of linear constraints, which encodes
that the side holds for all values of the set.

## Main definitions

* `Budget.Supported`: coefficients of the parameters on which a side depends.
* `Budget.auxiliaryConstraints`: the constraints of a side with a budget and a deviation.
* `Budget.Covers`: what they say about the auxiliary values.
* `Point.withPrice`: a point with the auxiliary values of a price.
* `Budget.Idle`: no parameter of a side can leave its nominal value.
* `Budget.IsPrice`: the columns of the auxiliary variables.

## Main statements

* `Budget.forall_of_prices`, `Budget.exists_prices`: these constraints can be satisfied exactly
  where the side holds for all values.
* `Budget.exists_represents`, `Budget.reformulate_spec`: the constraints that the program writes
  represent the side, and encode it.
-/

namespace RobustOpt

open Finset Bilinear

namespace Budget

variable {n : ℕ} {nominal deviation : List Extended} {c : ℕ → ℚ} {gamma : ℚ}

/-! ## The parameters of a side -/

theorem mem_active {side : Side Extended} {m : ℕ} {w : ℕ → ℕ → ℚ} {o : ℕ → ℚ}
    (hside : side.HasEntries n m w o) {i : ℕ} :
    i ∈ active side ↔ i < n ∧ (o i ≠ 0 ∨ ∃ j < m, w i j ≠ 0) := by
  simp only [active, hside.linear, hside.offset, List.length_map, List.length_range,
    List.mem_filter, List.mem_range]
  refine and_congr_right fun hi => ?_
  rw [List.getD_eq_getElem _ _ (by simpa using hi), List.getD_eq_getElem _ _ (by simpa using hi)]
  simp [scalars]

/-- Coefficients of the `n` parameters of a side, zero for those on which it does not depend. The
others have finite nominal values and deviations. -/
structure Supported (nominal deviation : List Extended) (side : Side Extended) (n : ℕ)
    (c : ℕ → ℚ) : Prop where
  length : side.linear.length = n
  zero : ∀ i < n, i ∉ active side → c i = 0
  counts : ∀ i ∈ active side, Counts nominal deviation i

/-- Where a side does not depend on a parameter, nothing can be kept. What is kept of the other
parameters is therefore what is kept of all. -/
theorem kept_active {side : Side Extended} {m : ℕ} {w : ℕ → ℕ → ℚ} {o : ℕ → ℚ}
    (hside : side.HasEntries n m w o) (i : ℕ) {j : ℕ} (hj : j < m) :
    Affine.kept (active side) w i j = Affine.kept (List.range n) w i j := by
  have hiff : (∀ k ∈ active side, Scalar.negligible (Extended.finite (w k j)) = true)
      ↔ ∀ k ∈ List.range n, Scalar.negligible (Extended.finite (w k j)) = true := by
    refine ⟨fun h k hk => ?_, fun h k hk =>
      h k (List.mem_range.mpr ((mem_active hside).mp hk).1)⟩
    by_cases hmem : k ∈ active side
    · exact h k hmem
    · have hzero : w k j = 0 := by
        by_contra hne
        exact hmem ((mem_active hside).mpr ⟨List.mem_range.mp hk, .inr ⟨j, hj, hne⟩⟩)
      rw [hzero]
      decide +kernel
  simp only [Affine.kept, hiff]

/-- The coefficients that are kept of a side at decision values. -/
theorem supported_writtenAt {side : Side Extended} {m : ℕ} {w : ℕ → ℕ → ℚ} {o : ℕ → ℚ}
    (hside : side.HasEntries n m w o) (hcounts : ∀ i ∈ active side, Counts nominal deviation i)
    (x : ℕ → ℚ) : Supported nominal deviation side n (writtenAt w o n m x) where
  length := by simp [hside.linear]
  counts := hcounts
  zero i hi h := by
    rw [mem_active hside, not_and] at h
    have h := h hi
    push Not at h
    rw [writtenAt, affineAt, h.1, add_zero]
    refine sum_eq_zero fun j hj => ?_
    rw [Affine.kept, h.2 j (mem_range.mp hj), ite_self, zero_mul]

theorem counts_of_active {q : SparseMatrix Extended} {m : ℕ} {s : ℚ} {i : ℕ}
    (hA : OnlyUses q n (Counts nominal deviation)) (h : i ∈ active (signedSide q n m s)) :
    Counts nominal deviation i := by
  obtain ⟨hi, h⟩ := (mem_active (hasEntries_signedSide q n m s)).mp h
  by_contra hn
  simp [hA i hi hn] at h

namespace Supported

variable {side : Side Extended} (h : Supported nominal deviation side n c)
include h

theorem lt {i : ℕ} (hi : i ∈ active side) : i < n := by
  have := (List.mem_filter.mp hi).1
  rwa [h.length, List.mem_range] at this

theorem eq_zero {i : ℕ} (hi : i < n) (hn : ¬ Counts nominal deviation i) : c i = 0 :=
  h.zero i hi fun hmem => hn (h.counts i hmem)

/-- Parameters on which a side does not depend do not contribute to sums. -/
theorem sum_active {f : ℕ → ℚ} (hf : ∀ i < n, i ∉ active side → f i = 0) :
    ∑ k ∈ range (active side).length, f ((active side).getD k 0) = ∑ i ∈ range n, f i := by
  rw [← sum_map_range, ← sum_map_range, ← map_eq_map_range f 0, active, h.length, sum_map_filter]
  intro i hi hp
  refine hf i (List.mem_range.mp hi) fun hmem => ?_
  have := (List.mem_filter.mp hmem).2
  rw [hp] at this
  cases this

/-- The nominal value of a side, summed over all parameters. -/
theorem sum_nominal : ((active side).map fun i => Extended.coord nominal i * c i).sum
    = ∑ i ∈ range n, Extended.coord nominal i * c i := by
  rw [map_eq_map_range _ 0, sum_map_range]
  exact h.sum_active (f := fun i => Extended.coord nominal i * c i) fun i hi hni => by
    rw [h.zero i hi hni, mul_zero]

end Supported

/-- The nominal value of a side. -/
def expected (nominal : List Extended) (positions : List ℕ) (e : ℕ → Affine Extended)
    (certain : Affine Extended) : Affine Extended :=
  positions.foldl (fun acc i => .add acc (.scale (nominal.getD i 0) (e i))) certain

theorem eval_expected {positions : List ℕ} {e : ℕ → Affine Extended} {S : ℕ → ℚ} {y : Point}
    (hnom : ∀ i ∈ positions, Scalar.isFinite (nominal.getD i 0) = true)
    (he : ∀ i ∈ positions, (e i).eval y.exact = .finite (S i)) {certain : Affine Extended} {z : ℚ}
    (hc : certain.eval y.exact = .finite z) :
    (expected nominal positions e certain).eval y.exact
      = .finite (z + (positions.map fun i => Extended.coord nominal i * S i).sum) := by
  induction positions generalizing certain z with
  | nil => simpa [expected] using hc
  | cons i rest ih =>
    have hi : nominal.getD i 0 = .finite (Extended.coord nominal i) :=
      (Extended.finite_rat (hnom i (by simp))).symm
    have hstep : (Affine.add certain (.scale (nominal.getD i 0) (e i))).eval y.exact
        = .finite (z + Extended.coord nominal i * S i) := by
      rw [Affine.eval, Affine.eval, hc, he i (by simp), hi, Extended.finite_mul,
        Extended.finite_add]
    have := ih (fun j hj => hnom j (by simp [hj])) (fun j hj => he j (by simp [hj])) hstep
    rw [expected, List.foldl_cons]
    rw [expected] at this
    rw [this, List.map_cons, List.sum_cons, add_assoc]

theorem within_expected {P : Column → Prop} {positions : List ℕ} {e : ℕ → Affine Extended}
    (he : ∀ i ∈ positions, (e i).Within P) {certain : Affine Extended} (hc : certain.Within P) :
    (expected nominal positions e certain).Within P := by
  induction positions generalizing certain with
  | nil => exact hc
  | cons i rest ih =>
    exact ih (fun j hj => he j (by simp [hj])) (by simpa using ⟨hc, he i (by simp)⟩)

/-! ## Prices -/

/-- A side holds for all values of the set if its nominal value and the excess allow it. -/
theorem forall_region_iff (hg : 0 ≤ gamma)
    (hpos : ∀ i < n, Counts nominal deviation i → 0 ≤ Extended.coord deviation i)
    (hc : ∀ i < n, ¬ Counts nominal deviation i → c i = 0) (z rhs : ℚ) :
    (∀ u, Region gamma nominal deviation n u → ∑ i ∈ range n, u i * c i + z ≤ rhs)
      ↔ z + ∑ i ∈ range n, Extended.coord nominal i * c i + excess gamma deviation n c ≤ rhs := by
  constructor
  · intro h
    obtain ⟨hregion, hvalue⟩ := region_used (u := fun i => Extended.coord nominal i
      + Extended.coord deviation i * used gamma deviation n c i) hg hc fun _ _ _ => rfl
    have := h _ hregion
    rw [hvalue] at this
    linarith
  · intro h u hu
    linarith [sum_le_of_region hg hpos hc hu]

/-- Without budget or deviation nothing exceeds the nominal value. -/
theorem excess_eq_zero (hg : 0 ≤ gamma) (h : gamma = 0 ∨ ∀ i < n, gain deviation c i = 0) :
    excess gamma deviation n c = 0 := by
  refine sum_eq_zero fun i hi => ?_
  rcases h with rfl | h
  · have hnonneg : ∀ i ∈ range n, 0 ≤ |greedy 0 deviation n c i| := fun i _ => abs_nonneg _
    have hsum := le_antisymm (sum_abs_greedy_le 0 deviation n c hg) (sum_nonneg hnonneg)
    rw [(sum_eq_zero_iff_of_nonneg hnonneg).mp hsum i hi, mul_zero]
  · rw [h i (mem_range.mp hi), zero_mul]

/-- Whether amounts `t` cover the contributions of the parameters at `positions`, and a price and
surpluses cover the amounts. -/
def Covers (deviation : List Extended) (positions : List ℕ) (c t p : ℕ → ℚ) (π : ℚ) : Prop :=
  ∀ k < positions.length,
    Extended.coord deviation (positions.getD k 0) * c (positions.getD k 0) ≤ t k
      ∧ -(Extended.coord deviation (positions.getD k 0) * c (positions.getD k 0)) ≤ t k
      ∧ t k ≤ π + p k

section Covers

variable {side : Side Extended} {t p : ℕ → ℚ} {π : ℚ}

/-- The shares of the active parameters do not exceed the budget. -/
theorem Supported.sum_abs_le (h : Supported nominal deviation side n c) {z : ℕ → ℚ}
    (hz : ∑ i ∈ range n, |z i| ≤ gamma) :
    ∑ k ∈ range (active side).length, |z ((active side).getD k 0)| ≤ gamma := by
  calc ∑ k ∈ range (active side).length, |z ((active side).getD k 0)|
      = ∑ k ∈ range (active side).length,
          if (active side).getD k 0 ∈ active side then |z ((active side).getD k 0)| else 0 :=
        sum_congr rfl fun k hk => (if_pos (getD_mem (mem_range.mp hk))).symm
    _ = ∑ i ∈ range n, if i ∈ active side then |z i| else 0 :=
        h.sum_active (f := fun i => if i ∈ active side then |z i| else 0) fun i _ hi =>
          if_neg hi
    _ ≤ ∑ i ∈ range n, |z i| := by
        refine sum_le_sum fun i _ => ?_
        split_ifs
        exacts [le_rfl, abs_nonneg _]
    _ ≤ gamma := hz

/-- Covered contributions exceed the nominal value by no more than the budget at its price and the
surpluses. -/
theorem Covers.sum_le (hcover : Covers deviation (active side) c t p π)
    (h : Supported nominal deviation side n c) (hπ : 0 ≤ π)
    (hp : ∀ k < (active side).length, 0 ≤ p k) {u : ℕ → ℚ}
    (hu : Region gamma nominal deviation n u) :
    ∑ i ∈ range n, u i * c i ≤ ∑ i ∈ range n, Extended.coord nominal i * c i
      + (gamma * π + ∑ k ∈ range (active side).length, p k) := by
  obtain ⟨z, hz, hzsum, huz⟩ := hu
  have hshare : ∀ k < (active side).length, |z ((active side).getD k 0)| ≤ 1 := fun k hk =>
    hz _ (h.lt (getD_mem hk))
  rw [sum_shifted (fun i => h.eq_zero) huz]
  refine add_le_add le_rfl (le_trans ?_ (sum_covered_le hπ hp (fun k hk => (hcover k hk).2.2)
    hshare (h.sum_abs_le hzsum)))
  rw [← h.sum_active (f := fun i => Extended.coord deviation i * (z i * c i)) fun i hi hni => by
    rw [h.zero i hi hni, mul_zero, mul_zero]]
  refine sum_le_sum fun k hk => ?_
  obtain ⟨hup, hdown, -⟩ := hcover k (mem_range.mp hk)
  have habs := mul_le_mul_of_nonneg_right (abs_le'.mpr ⟨hup, hdown⟩)
    (abs_nonneg (z ((active side).getD k 0)))
  rw [← abs_mul] at habs
  refine le_trans (le_of_eq ?_) ((le_abs_self _).trans habs)
  ring

/-- The contributions and what they exceed a price by are covered. -/
theorem covers_gain (h : Supported nominal deviation side n c)
    (hpos : ∀ i < n, Counts nominal deviation i → 0 ≤ Extended.coord deviation i) (π : ℚ) :
    Covers deviation (active side) c (fun k => gain deviation c ((active side).getD k 0))
      (fun k => max 0 (gain deviation c ((active side).getD k 0) - π)) π := by
  intro k hk
  have hmem : (active side).getD k 0 ∈ active side := getD_mem hk
  have hd := hpos _ (h.lt hmem) (h.counts _ hmem)
  refine ⟨mul_le_mul_of_nonneg_left (le_abs_self _) hd, ?_, ?_⟩
  · rw [← mul_neg]
    exact mul_le_mul_of_nonneg_left (neg_le_abs _) hd
  · linarith [le_max_right 0 (gain deviation c ((active side).getD k 0) - π)]

/-- What all contributions exceed a price by comes from active parameters. -/
theorem sum_surplus (h : Supported nominal deviation side n c) (hπ : 0 ≤ π) :
    ∑ k ∈ range (active side).length, max 0 (gain deviation c ((active side).getD k 0) - π)
      = ∑ i ∈ range n, max 0 (gain deviation c i - π) := by
  refine h.sum_active (f := fun i => max 0 (gain deviation c i - π)) fun i hi hni => ?_
  rw [gain, h.zero i hi hni, abs_zero, mul_zero, zero_sub]
  exact max_eq_left (neg_nonpos.mpr hπ)

end Covers

/-! ## The auxiliary constraints -/

/-- The constraints of a side with a budget and a deviation. -/
def auxiliaryConstraints (gamma : ℚ) (deviation : List Extended) (positions : List ℕ)
    (e : ℕ → Affine Extended) (nominalPart : Affine Extended) (rhs : ℚ) (t p : ℕ → Column)
    (pi : Column) : List (LinearConstraint Extended) :=
  let each := fun f : ℕ → Affine Extended => (List.range positions.length).map f
  let spread := fun k => Affine.scale (deviation.getD (positions.getD k 0) 0)
    (e (positions.getD k 0))
  [.entrywise .atMost (each spread) (each fun k => .auxiliary (t k)),
    .entrywise .atMost (each fun k => .neg (spread k)) (each fun k => .auxiliary (t k)),
    .entrywise .atMost (each fun k => .auxiliary (t k))
      (each fun k => .add (.auxiliary pi) (.auxiliary (p k))),
    .atMost ((nominalPart.addColumns [(.finite gamma, pi)]).addColumns
      ((List.range positions.length).map fun k => (1, p k))) (.constant (.finite rhs))]

section Auxiliary

variable {positions : List ℕ} {e : ℕ → Affine Extended} {nominalPart : Affine Extended}

/-- What these constraints say. -/
theorem holds_auxiliaryConstraints (gamma rhs : ℚ) (t p : ℕ → Column) (pi : Column) {y : Point}
    {S : ℕ → ℚ} {z : ℚ}
    (hdev : ∀ i ∈ positions, Scalar.isFinite (deviation.getD i 0) = true)
    (he : ∀ i ∈ positions, (e i).eval y.exact = .finite (S i))
    (hz : nominalPart.eval y.exact = .finite z) :
    (∀ c ∈ auxiliaryConstraints gamma deviation positions e nominalPart rhs t p pi,
        c.Holds y.exact)
      ↔ Covers deviation positions S (fun k => y (t k)) (fun k => y (p k)) (y pi)
        ∧ z + gamma * y pi + ∑ k ∈ range positions.length, y (p k) ≤ rhs := by
  have hspread : ∀ k < positions.length,
      (Affine.scale (deviation.getD (positions.getD k 0) 0) (e (positions.getD k 0))).eval y.exact
        = .finite (Extended.coord deviation (positions.getD k 0) * S (positions.getD k 0)) := by
      intro k hk
      rw [Affine.eval, he _ (getD_mem hk), ← Extended.finite_rat (hdev _ (getD_mem hk)),
        Extended.finite_mul]
      rfl
  have haux : ∀ d : Column, (Affine.auxiliary d).eval y.exact = .finite (y d) := fun d => rfl
  have hpi : (nominalPart.addColumns [(.finite gamma, pi)]).eval y.exact
      = .finite (z + gamma * y pi) := by
    rw [Affine.eval_addColumns (by simp) hz]
    simp
  have hterms : ∀ s ∈ (List.range positions.length).map fun k => ((1 : Extended), p k),
      Scalar.isFinite s.1 = true := by simp
  have hbound := Affine.eval_addColumns hterms hpi
  rw [List.map_map, sum_map_range] at hbound
  simp only [auxiliaryConstraints, List.forall_mem_cons, List.not_mem_nil, false_imp_iff,
    implies_true, and_true, LinearConstraint.Holds, LinearConstraint.entrywise,
    LinearConstraint.atMost, List.zip_map', List.forall_mem_map, Relation.holds, List.mem_range,
    hbound, haux, Affine.eval, Extended.finite_add, Extended.le_finite, decide_eq_true_eq]
  rw [← and_assoc, ← and_assoc]
  refine and_congr ?_ (by simp)
  rw [and_assoc, ← forall₂_and, ← forall₂_and]
  refine forall₂_congr fun k hk => ?_
  have hk' := hspread k hk
  rw [Affine.eval] at hk'
  rw [hk', Extended.neg_finite, Extended.le_finite, Extended.le_finite, decide_eq_true_eq,
    decide_eq_true_eq]

theorem within_auxiliaryConstraints {P : Column → Prop} {rhs : ℚ} {t p : ℕ → Column} {pi : Column}
    (he : ∀ i ∈ positions, (e i).Within P) (hz : nominalPart.Within P)
    (ht : ∀ k < positions.length, P (t k)) (hp : ∀ k < positions.length, P (p k)) (hpi : P pi) :
    ∀ c ∈ auxiliaryConstraints gamma deviation positions e nominalPart rhs t p pi, c.Within P := by
  have haux : ∀ d, (Affine.auxiliary d : Affine Extended).Within P ↔ P d := by
    intro d
    simp [Affine.auxiliary]
  have hbound : ((nominalPart.addColumns [(.finite gamma, pi)]).addColumns
      ((List.range positions.length).map fun k => (1, p k))).Within P := by
    refine Affine.within_addColumns (Affine.within_addColumns hz (by simpa using hpi)) ?_
    simpa using hp
  simp only [auxiliaryConstraints, List.forall_mem_cons, List.not_mem_nil, false_imp_iff,
    implies_true, and_true, LinearConstraint.Within, LinearConstraint.entrywise,
    LinearConstraint.atMost, List.zip_map', List.forall_mem_map, List.mem_range, haux,
    Affine.within_neg, Affine.within_scale, Affine.within_add, Affine.within_constant, hbound, hpi,
    true_and]
  exact ⟨fun k hk => ⟨he _ (getD_mem hk), ht k hk⟩, fun k hk => ⟨he _ (getD_mem hk), ht k hk⟩,
    fun k hk => ⟨ht k hk, hp k hk⟩⟩

end Auxiliary

end Budget

/-! ## Auxiliary values -/

namespace Supply

/-- The columns of the amounts, of the surpluses and of the price of a reformulation. -/
def amount (s : Supply) (k : ℕ) : Column := s.column false (some k)

def surplus (s : Supply) (k : ℕ) : Column :=
  (⟨s.serial + 1, s.auxiliary + 1⟩ : Supply).column true (some k)

def price (s : Supply) : Column := (⟨s.serial + 2, s.auxiliary + 2⟩ : Supply).column true none

end Supply

/-- A point with given amounts and the surpluses over a price. -/
def Point.withPrice (x : Point) (s : Supply) (k : ℕ → ℚ) (π : ℚ) : Point :=
  ((x.assign s false fun j => k (j.getD 0)).assign ⟨s.serial + 1, s.auxiliary + 1⟩ true
    fun j => max 0 (k (j.getD 0) - π)).assign ⟨s.serial + 2, s.auxiliary + 2⟩ true fun _ => π

section WithPrice

variable {x : Point} {s : Supply} {k : ℕ → ℚ} {π : ℚ}

theorem Point.withPrice_of_lt {d : Column} (h : d.serial < s.serial) :
    x.withPrice s k π d = x d := by
  rw [withPrice, assign_of_lt (h.trans (by simp)), assign_of_lt (h.trans (by simp)),
    assign_of_lt h]

@[simp] theorem Point.withPrice_amount (j : ℕ) : x.withPrice s k π (s.amount j) = k j := by
  rw [withPrice, assign_of_lt (by simp [Supply.amount, Supply.column]),
    assign_of_lt (by simp [Supply.amount, Supply.column]), Supply.amount, assign_column]
  rfl

@[simp] theorem Point.withPrice_surplus (j : ℕ) :
    x.withPrice s k π (s.surplus j) = max 0 (k j - π) := by
  rw [withPrice, assign_of_lt (by simp [Supply.surplus, Supply.column]), Supply.surplus,
    assign_column]
  rfl

@[simp] theorem Point.withPrice_price : x.withPrice s k π s.price = π :=
  assign_column none

theorem Point.admits_withPrice (hπ : 0 ≤ π) {d : Column} (hd : s.serial ≤ d.serial) :
    d.Admits (x.withPrice s k π d) := by
  unfold withPrice
  rcases lt_or_ge d.serial (s.serial + 2) with h2 | h2
  · rw [assign_of_lt (s := ⟨s.serial + 2, s.auxiliary + 2⟩) h2]
    rcases lt_or_ge d.serial (s.serial + 1) with h1 | h1
    · rw [assign_of_lt (s := ⟨s.serial + 1, s.auxiliary + 1⟩) h1]
      exact admits_assign (by simp) hd
    · exact admits_assign (fun _ j => le_max_left _ _) h1
  · exact admits_assign (fun _ _ => hπ) h2

end WithPrice

namespace Budget

section Reformulate

variable {n : ℕ} {nominal deviation : List Extended} {c : ℕ → ℚ} {gamma rhs : ℚ}
  {side : Side Extended} {ds : List (Decision Extended)} {supply : Supply}
  {e : ℕ → Affine Extended} {nominalPart : Affine Extended}

/-- Amounts, surpluses and a price that satisfy the auxiliary constraints prove that a side holds
for all values of the set. -/
theorem forall_of_prices (h : Supported nominal deviation side n c) {y : Point} {z : ℚ}
    (he : ∀ i ∈ active side, (e i).eval y.exact = .finite (c i))
    (hz : nominalPart.eval y.exact
      = .finite (z + ∑ i ∈ range n, Extended.coord nominal i * c i))
    (hsurplus : ∀ k < (active side).length, 0 ≤ y (supply.surplus k))
    (hprice : 0 ≤ y supply.price)
    (hy : ∀ d ∈ auxiliaryConstraints gamma deviation (active side) e nominalPart rhs supply.amount
      supply.surplus supply.price, d.Holds y.exact) {u : ℕ → ℚ}
    (hu : Region gamma nominal deviation n u) : ∑ i ∈ range n, u i * c i + z ≤ rhs := by
  obtain ⟨hcover, hbound⟩ := (holds_auxiliaryConstraints gamma rhs supply.amount supply.surplus
    supply.price (fun i hi => (h.counts i hi).2) he hz).mp hy
  linarith [hcover.sum_le h hprice hsurplus hu]

/-- If a side holds for all values of the set, the columns of the amounts, surpluses and the price,
which come after those of the side, can be given values that satisfy the auxiliary constraints. -/
theorem exists_prices (hg : 0 ≤ gamma)
    (hpos : ∀ i < n, Counts nominal deviation i → 0 ≤ Extended.coord deviation i)
    (h : Supported nominal deviation side n c) {x : Point} {z : ℚ}
    (he : ∀ i ∈ active side, ∀ y : Point, (∀ d : Column, d.serial < supply.serial → y d = x d) →
      (e i).eval y.exact = .finite (c i))
    (hz : ∀ y : Point, (∀ d : Column, d.serial < supply.serial → y d = x d) →
      nominalPart.eval y.exact = .finite (z + ∑ i ∈ range n, Extended.coord nominal i * c i))
    (hall : ∀ u, Region gamma nominal deviation n u → ∑ i ∈ range n, u i * c i + z ≤ rhs) :
    ∃ y : Point, (∀ d : Column, d.serial < supply.serial → y d = x d)
      ∧ (∀ d : Column, supply.serial ≤ d.serial → d.Admits (y d))
      ∧ ∀ d ∈ auxiliaryConstraints gamma deviation (active side) e nominalPart rhs supply.amount
        supply.surplus supply.price, d.Holds y.exact := by
  rw [forall_region_iff hg hpos (fun i => h.eq_zero), excess] at hall
  obtain ⟨π, hπ, hprice⟩ := exists_price_greedy gamma deviation n c hg
  let y := x.withPrice supply (fun k => gain deviation c ((active side).getD k 0)) π
  have hyx : ∀ d : Column, d.serial < supply.serial → y d = x d := fun d hd =>
    Point.withPrice_of_lt hd
  refine ⟨y, hyx, fun d hd => Point.admits_withPrice hπ hd, ?_⟩
  rw [holds_auxiliaryConstraints gamma rhs supply.amount supply.surplus supply.price
    (fun i hi => (h.counts i hi).2) (fun i hi => he i hi y hyx) (hz y hyx)]
  simp only [y, Point.withPrice_amount, Point.withPrice_surplus, Point.withPrice_price]
  refine ⟨covers_gain h hpos π, ?_⟩
  rw [sum_surplus h hπ]
  linarith

/-- Whether no parameter of a side can leave its nominal value: there is no budget, or no active
parameter with a positive deviation. -/
def Idle (gamma : ℚ) (deviation : List Extended) (positions : List ℕ) : Prop :=
  gamma = 0 ∨ ∀ i ∈ positions, Extended.coord deviation i ≤ 0

/-- The bound on the nominal value of an idle side says that it holds for all values of the set. -/
theorem holds_nominal_iff (rhs : ℚ) (hg : 0 ≤ gamma)
    (hpos : ∀ i < n, Counts nominal deviation i → 0 ≤ Extended.coord deviation i)
    (h : Supported nominal deviation side n c) (hidle : Idle gamma deviation (active side))
    {y : Point} {z : ℚ} (hz : nominalPart.eval y.exact
      = .finite (z + ∑ i ∈ range n, Extended.coord nominal i * c i)) :
    (LinearConstraint.atMost nominalPart (.constant (.finite rhs))).Holds y.exact
      ↔ ∀ u, Region gamma nominal deviation n u → ∑ i ∈ range n, u i * c i + z ≤ rhs := by
  have hgain : gamma = 0 ∨ ∀ i < n, gain deviation c i = 0 := by
    refine hidle.imp_right fun hnone i hi => ?_
    by_cases hmem : i ∈ active side
    · rw [gain, le_antisymm (hnone i hmem) (hpos i hi (h.counts i hmem)), zero_mul]
    · rw [gain, h.zero i hi hmem, abs_zero, mul_zero]
  rw [forall_region_iff hg hpos (fun i => h.eq_zero), excess_eq_zero hg hgain, add_zero]
  simp [LinearConstraint.Holds, LinearConstraint.atMost, Relation.holds, hz, Affine.eval]

/-- What is kept of the coefficients of the active parameters, as expressions in the decision
variables. -/
theorem exists_slopes {w : ℕ → ℕ → ℚ} {o : ℕ → ℚ} (hside : side.HasEntries n ds.length w o) :
    ∃ e : ℕ → Affine Extended,
      Affine.ofMap (pick [] (active side) side.linear) (pick 0 (active side) side.offset) ds
        = .ok ((active side).map e)
      ∧ ∀ i ∈ active side, (e i).Within (Decision.Owns ds)
        ∧ ∀ y : Point, (e i).eval y.exact
          = .finite (writtenAt w o n ds.length (Decision.valuesAt ds y) i) := by
  have hlt : ∀ i ∈ active side, i < n := fun i hi => ((mem_active hside).mp hi).1
  obtain ⟨e, he, hspec⟩ := Affine.ofMap_kept ds (active side) w o rfl
  refine ⟨e, ?_, fun i hi => ⟨(hspec i hi).1, fun y => ?_⟩⟩
  · rw [← he, hside.linear, hside.offset]
    congr 1
    · refine List.map_congr_left fun i hi => ?_
      rw [List.getD_eq_getElem _ _ (by simpa using hlt i hi)]
      simp
    · refine List.map_congr_left fun i hi => ?_
      rw [List.getD_eq_getElem _ _ (by simpa using hlt i hi)]
      simp [scalars]
  · rw [(hspec i hi).2 y, writtenAt, affineAt]
    congr 2
    exact sum_congr rfl fun j hj => by rw [kept_active hside i (mem_range.mp hj)]

/-- The nominal value is added up position by position. -/
theorem foldl_scale (e : ℕ → Affine Extended) (positions : List ℕ) (certain : Affine Extended) :
    ((pick 0 positions nominal).zip (positions.map e)).foldl
        (fun acc p => Affine.add acc (.scale p.1 p.2)) certain
      = expected nominal positions e certain := by
  rw [pick, List.zip_map', List.foldl_map]
  rfl

/-- The coefficients are scaled position by position. -/
theorem zipWith_scale (e : ℕ → Affine Extended) (positions : List ℕ) :
    List.zipWith Affine.scale (pick 0 positions deviation) (positions.map e)
      = (List.range positions.length).map fun k =>
        Affine.scale (deviation.getD (positions.getD k 0) 0) (e (positions.getD k 0)) := by
  rw [pick, List.zipWith_map, List.zipWith_self, map_eq_map_range _ 0]

/-- The program tells an idle side by its budget and the deviations it picks. -/
theorem isIdle_iff {positions : List ℕ}
    (h : ∀ i ∈ positions, Scalar.isFinite (deviation.getD i 0) = true) :
    (Scalar.isZero (Extended.finite gamma)
      || !((pick 0 positions deviation).any fun d => Scalar.lt 0 d)) = true
      ↔ Idle gamma deviation positions := by
  rw [Bool.or_eq_true, Extended.isZero_finite, decide_eq_true_eq, Bool.not_eq_true',
    List.any_eq_false, pick, List.forall_mem_map]
  refine or_congr_right (forall₂_congr fun i hi => ?_)
  rw [← Extended.finite_rat (h i hi), Extended.zero_eq, Extended.lt_finite, decide_eq_true_eq,
    not_lt]
  rfl

/-- The program bounds the nominal value of an idle side, and writes the auxiliary constraints of
any other. -/
theorem exists_reformulate (gamma : ℚ) (certain : Affine Extended) (supply : Supply)
    {w : ℕ → ℕ → ℚ} {o : ℕ → ℚ} (hside : side.HasEntries n ds.length w o)
    (hcounts : ∀ i ∈ active side, Counts nominal deviation i) (rhs : ℚ) :
    ∃ e : ℕ → Affine Extended,
      (∀ i ∈ active side, (e i).Within (Decision.Owns ds)
        ∧ ∀ y : Point, (e i).eval y.exact
          = .finite (writtenAt w o n ds.length (Decision.valuesAt ds y) i))
      ∧ (Idle gamma deviation (active side) →
        reformulate (.finite gamma) nominal deviation side certain (.finite rhs) ds supply
          = .ok ([.atMost (expected nominal (active side) e certain) (.constant (.finite rhs))],
            supply))
      ∧ (¬ Idle gamma deviation (active side) →
        reformulate (.finite gamma) nominal deviation side certain (.finite rhs) ds supply
          = .ok (auxiliaryConstraints gamma deviation (active side) e
            (expected nominal (active side) e certain) rhs supply.amount supply.surplus
            supply.price, ⟨supply.serial + 3, supply.auxiliary + 3⟩)) := by
  obtain ⟨e, he, hslope⟩ := exists_slopes hside
  refine ⟨e, hslope, ?_⟩
  set P := active side with hP
  have hidle : _ ↔ Idle gamma deviation P := isIdle_iff fun i hi => (hcounts i hi).2
  unfold reformulate
  rw [← hP]
  by_cases hempty : P.isEmpty
  · have hnil : P = [] := List.isEmpty_iff.mp hempty
    refine ⟨fun _ => (if_pos hempty).trans ?_, fun h => absurd (.inr ?_) h⟩
    · rw [hnil]
      rfl
    · simp [hnil]
  · rw [if_neg hempty]
    refine ⟨fun h => bind_eq_ok.mpr ⟨_, he, ?_⟩, fun h => bind_eq_ok.mpr ⟨_, he, ?_⟩⟩
    · dsimp only
      rw [foldl_scale, if_pos (hidle.mpr h)]
      rfl
    · dsimp only
      rw [foldl_scale, if_neg (mt hidle.mp h)]
      simp only [zipWith_scale, Supply.fresh_some, List.map_map, auxiliaryConstraints]
      rfl

/-- The columns of the surpluses and the price for some number of parameters. -/
def IsSigned (supply : Supply) (count : ℕ) (d : Column) : Prop :=
  (∃ k < count, d = supply.surplus k) ∨ d = supply.price

/-- The columns of the amounts, the surpluses and the price for some number of parameters. -/
def IsPrice (supply : Supply) (count : ℕ) (d : Column) : Prop :=
  (∃ k < count, d = supply.amount k) ∨ IsSigned supply count d

theorem IsSigned.admits {count : ℕ} {d : Column} (h : IsSigned supply count d) :
    supply.serial ≤ d.serial ∧ ∀ q, d.Admits q → 0 ≤ q := by
  obtain ⟨k, -, rfl⟩ | rfl := h
  · exact ⟨by simp [Supply.surplus, Supply.column], fun q hq => hq.1 rfl⟩
  · exact ⟨by simp [Supply.price, Supply.column], fun q hq => hq.1 rfl⟩

theorem IsPrice.serial_lt {count : ℕ} {d : Column} (h : IsPrice supply count d) :
    d.serial < supply.serial + 3 := by
  obtain ⟨k, -, rfl⟩ | ⟨k, -, rfl⟩ | rfl := h <;>
    simp [Supply.amount, Supply.surplus, Supply.price, Supply.column]

section Represents

variable {a : Point → ℕ → ℚ} {z : Point → ℚ} {count : ℕ} (hg : 0 ≤ gamma)
  (hpos : ∀ i < n, Counts nominal deviation i → 0 ≤ Extended.coord deviation i)
  (hsupported : ∀ y, Supported nominal deviation side n (a y))
  (hz : ∀ y : Point, nominalPart.eval y.exact
    = .finite (z y + ∑ i ∈ range n, Extended.coord nominal i * a y i))
  (hagree : ∀ x y : Point, (∀ d : Column, d.serial < supply.serial → x d = y d) →
    a x = a y ∧ z x = z y)
include hg hpos hsupported hz hagree

/-- The bound on the nominal value represents what it says of an idle side. -/
theorem represents_nominal (hidle : Idle gamma deviation (active side))
    (hwithin : nominalPart.Within (·.serial < supply.serial)) (rhs : ℚ) :
    Represents supply.serial (IsSigned supply count)
      [.atMost nominalPart (.constant (.finite rhs))] fun y =>
        ∀ u, Region gamma nominal deviation n u → ∑ i ∈ range n, u i * a y i + z y ≤ rhs := by
  have hholds := fun y => holds_nominal_iff rhs hg hpos (hsupported y) hidle (hz y)
  refine ⟨fun _ => IsSigned.admits, fun x y hxy => ?_, fun y _ hy => ?_, ?_⟩
  · rw [(hagree x y hxy).1, (hagree x y hxy).2]
  · exact (hholds y).mp (hy _ (by simp))
  · refine (Encodes.singleton ?_ hholds).complete
    simpa [LinearConstraint.Within, LinearConstraint.atMost] using hwithin

/-- The auxiliary constraints represent that a side holds for all values of the set. -/
theorem represents_auxiliary
    (he : ∀ y : Point, ∀ i ∈ active side, (e i).eval y.exact = .finite (a y i)) (rhs : ℚ) :
    Represents supply.serial (IsSigned supply (active side).length)
      (auxiliaryConstraints gamma deviation (active side) e nominalPart rhs supply.amount
        supply.surplus supply.price) fun y =>
        ∀ u, Region gamma nominal deviation n u → ∑ i ∈ range n, u i * a y i + z y ≤ rhs := by
  refine ⟨fun _ => IsSigned.admits, fun x y hxy => ?_, fun y hsigned hy u hu => ?_, fun x hx => ?_⟩
  · rw [(hagree x y hxy).1, (hagree x y hxy).2]
  · exact forall_of_prices (hsupported y) (he y) (hz y)
      (fun k hk => hsigned _ (.inl ⟨k, hk, rfl⟩)) (hsigned _ (.inr rfl)) hy hu
  · exact exists_prices hg hpos (hsupported x)
      (fun i hi y hyx => by rw [he y i hi, (hagree y x hyx).1])
      (fun y hyx => by rw [hz, (hagree y x hyx).1, (hagree y x hyx).2]) hx

end Represents

/-- What is written for a side is a matter of old columns. -/
theorem written_congr {w : ℕ → ℕ → ℚ} {o : ℕ → ℚ}
    (hold : ∀ d, Decision.Owns ds d → d.serial < supply.serial) {certain : Affine Extended}
    (hwithin : certain.Within (Decision.Owns ds)) {z : Point → ℚ}
    (hz : ∀ y : Point, certain.eval y.exact = .finite (z y)) {x y : Point}
    (hxy : ∀ d : Column, d.serial < supply.serial → x d = y d) :
    writtenAt w o n ds.length (Decision.valuesAt ds x)
      = writtenAt w o n ds.length (Decision.valuesAt ds y) ∧ z x = z y := by
  have hxy : ∀ d, Decision.Owns ds d → x d = y d := fun d hd => hxy d (hold d hd)
  have heval : certain.eval x.exact = certain.eval y.exact :=
    Affine.eval_congr (hwithin.mono fun d hd => by simp [hxy d hd])
  exact ⟨by rw [Decision.valuesAt_congr hxy], Extended.finite.inj (by rw [← hz, ← hz, heval])⟩

/-- The constraints that the program writes for a side represent that it holds, as it is written, for
all values of the set. An idle side has a single constraint and no new columns. -/
theorem exists_represents_written (hg : 0 ≤ gamma) {w : ℕ → ℕ → ℚ} {o : ℕ → ℚ}
    (hside : side.HasEntries n ds.length w o)
    (hcounts : ∀ i ∈ active side, Counts nominal deviation i)
    (hpos : ∀ i < n, Counts nominal deviation i → 0 ≤ Extended.coord deviation i)
    (hold : ∀ d, Decision.Owns ds d → d.serial < supply.serial) {certain : Affine Extended}
    (hwithin : certain.Within (Decision.Owns ds)) {z : Point → ℚ}
    (hz : ∀ y : Point, certain.eval y.exact = .finite (z y)) (rhs : ℚ) :
    ∃ cs next, reformulate (.finite gamma) nominal deviation side certain (.finite rhs) ds supply
        = .ok (cs, next)
      ∧ supply.serial ≤ next.serial
      ∧ (∀ c ∈ cs, c.Within fun d => Decision.Owns ds d
        ∨ IsPrice supply (active side).length d ∧ d.serial < next.serial)
      ∧ (Idle gamma deviation (active side) →
        next = supply ∧ cs.length = 1 ∧ ∀ c ∈ cs, c.Within (Decision.Owns ds))
      ∧ Represents supply.serial (IsSigned supply (active side).length) cs fun y =>
        ∀ u, Region gamma nominal deviation n u →
          ∑ i ∈ range n, u i * writtenAt w o n ds.length (Decision.valuesAt ds y) i + z y ≤ rhs := by
  obtain ⟨e, he, hidle, hbusy⟩ := exists_reformulate gamma certain supply hside hcounts rhs
  have hsupported := fun y : Point =>
    supported_writtenAt hside hcounts (Decision.valuesAt ds y)
  have hslope : ∀ y : Point, ∀ i ∈ active side, (e i).eval y.exact
      = .finite (writtenAt w o n ds.length (Decision.valuesAt ds y) i) := fun y i hi => (he i hi).2 y
  have hnominal : ∀ y : Point, (expected nominal (active side) e certain).eval y.exact
      = .finite (z y + ∑ i ∈ range n, Extended.coord nominal i
        * writtenAt w o n ds.length (Decision.valuesAt ds y) i) := by
    intro y
    rw [eval_expected (fun i hi => (hcounts i hi).1) (hslope y) (hz y), (hsupported y).sum_nominal]
  have hew : (expected nominal (active side) e certain).Within (Decision.Owns ds) :=
    within_expected (fun i hi => (he i hi).1) hwithin
  have hagree : ∀ x y : Point, (∀ d : Column, d.serial < supply.serial → x d = y d) →
      writtenAt w o n ds.length (Decision.valuesAt ds x)
        = writtenAt w o n ds.length (Decision.valuesAt ds y) ∧ z x = z y :=
    fun x y => written_congr hold hwithin hz
  by_cases h : Idle gamma deviation (active side)
  · have hone : ∀ c ∈ [LinearConstraint.atMost (expected nominal (active side) e certain)
        (.constant (.finite rhs))], c.Within (Decision.Owns ds) := by
      simpa [LinearConstraint.Within, LinearConstraint.atMost] using hew
    exact ⟨_, _, hidle h, le_rfl, fun c hc => (hone c hc).mono fun _ => .inl,
      fun _ => ⟨rfl, rfl, hone⟩,
      represents_nominal hg hpos hsupported hnominal hagree h (hew.mono hold) rhs⟩
  · refine ⟨_, _, hbusy h, by simp, ?_, fun hidle => absurd hidle h,
      represents_auxiliary hg hpos hsupported hnominal hagree hslope rhs⟩
    have hprice : ∀ d, IsPrice supply (active side).length d → Decision.Owns ds d
        ∨ IsPrice supply (active side).length d ∧ d.serial < supply.serial + 3 := fun d hd =>
      .inr ⟨hd, hd.serial_lt⟩
    exact within_auxiliaryConstraints (fun i hi => (he i hi).1.mono fun _ => .inl)
      (hew.mono fun _ => .inl) (fun k hk => hprice _ (.inl ⟨k, hk, rfl⟩))
      (fun k hk => hprice _ (.inr (.inl ⟨k, hk, rfl⟩))) (hprice _ (.inr (.inr rfl)))

/-- The constraints that the program writes for a side represent that it holds for all values of the
set. An idle side has a single constraint and no new columns. -/
theorem exists_represents (hg : 0 ≤ gamma) {w : ℕ → ℕ → ℚ} {o : ℕ → ℚ}
    (hside : side.IsAffine n ds.length w o)
    (hcounts : ∀ i ∈ active side, Counts nominal deviation i)
    (hpos : ∀ i < n, Counts nominal deviation i → 0 ≤ Extended.coord deviation i)
    (hold : ∀ d, Decision.Owns ds d → d.serial < supply.serial) {certain : Affine Extended}
    (hwithin : certain.Within (Decision.Owns ds)) {z : Point → ℚ}
    (hz : ∀ y : Point, certain.eval y.exact = .finite (z y)) (rhs : ℚ) :
    ∃ cs next, reformulate (.finite gamma) nominal deviation side certain (.finite rhs) ds supply
        = .ok (cs, next)
      ∧ supply.serial ≤ next.serial
      ∧ (∀ c ∈ cs, c.Within fun d => Decision.Owns ds d
        ∨ IsPrice supply (active side).length d ∧ d.serial < next.serial)
      ∧ (Idle gamma deviation (active side) →
        next = supply ∧ cs.length = 1 ∧ ∀ c ∈ cs, c.Within (Decision.Owns ds))
      ∧ Represents supply.serial (IsSigned supply (active side).length) cs fun y =>
        ∀ u, Region gamma nominal deviation n u →
          ∑ i ∈ range n, u i * affineAt w o ds.length (Decision.valuesAt ds y) i + z y ≤ rhs := by
  obtain ⟨cs, next, hok, hle, hwithin', hidle, hrepresents⟩ := exists_represents_written hg
    hside.hasEntries hcounts hpos hold hwithin hz rhs
  refine ⟨cs, next, hok, hle, hwithin', hidle, ?_⟩
  have hwritten : ∀ (y : Point) (u : ℕ → ℚ),
      ∑ i ∈ range n, u i * writtenAt w o n ds.length (Decision.valuesAt ds y) i
        = ∑ i ∈ range n, u i * affineAt w o ds.length (Decision.valuesAt ds y) i :=
    fun y u => sum_congr rfl fun i hi => by rw [hside.writtenAt_eq _ (mem_range.mp hi)]
  simpa only [hwritten] using hrepresents

/-- The constraints of a budget set encode that a side holds for all its values. -/
theorem reformulate_spec {q : SparseMatrix Extended} {s : Extended} (hg : 0 ≤ gamma)
    (hpos : ∀ i < n, Counts nominal deviation i → 0 ≤ Extended.coord deviation i)
    {certain : Affine Extended} (hq : Fits q n ds.length) (hs : IsSign s)
    (hA : OnlyUses q n (Counts nominal deviation))
    (hold : ∀ d, Decision.Owns ds d → d.serial < supply.serial)
    (hwithin : certain.Within (Decision.Owns ds))
    (heval : ∀ y : Point, certain.eval y.exact
      = .finite (slope q ds.length s.rat (Decision.valuesAt ds y) n)) :
    ∃ cs next, reformulate (.finite gamma) nominal deviation (signedSide q n ds.length s.rat)
        certain (.finite rhs) ds supply = .ok (cs, next)
      ∧ Encodes supply.serial next.serial cs fun y => ∀ u, Region gamma nominal deviation n u →
        valueAt q n ds.length s.rat u (Decision.valuesAt ds y) ≤ rhs := by
  obtain ⟨cs, next, hok, hle, hcs, -, hrepresents⟩ := exists_represents hg
    (isAffine_signedSide hq hs) (fun i => counts_of_active hA) hpos hold hwithin heval rhs
  refine ⟨cs, next, hok, (Encodes.of_represents hrepresents hle fun c hc => ?_).mono_congr ?_⟩
  · exact (hcs c hc).mono fun d hd => hd.elim (fun h => (hold d h).trans_le hle) fun h => h.2
  · simp only [valueAt_eq_slope, slope_eq_affineAt, implies_true]

end Reformulate

end Budget

end RobustOpt
