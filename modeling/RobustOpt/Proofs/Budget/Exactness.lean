import Mathlib
import RobustOpt.Proofs.Budget.Reformulation

/-!
# Worst case and prices of a budget set

The greedy worst case always exists, belongs to the set and maximizes a linear function over it. The
constraints that a budget set writes for a side can be satisfied at given decision values, by
arbitrary amounts, nonnegative surpluses and a nonnegative price, exactly where the side holds for
all values of the set. So can the single constraint of a side that is idle.

## Main statements

* `Budget.worstCase_optimal`: the greedy worst case is optimal.
* `Budget.exists_prices_iff`: prices exist exactly where the side holds for all values.
-/

namespace RobustOpt

open Finset Bilinear

namespace Budget

variable {n : ℕ} {gamma : ℚ}

/-! ## The greedy worst case -/

section WorstCase

variable (nominal deviation : ℕ → ℚ)

/-- Finite nominal values and deviations count. -/
theorem counts_scalars {i : ℕ} (hi : i < n) :
    Counts (scalars n nominal) (scalars n deviation) i := by
  have hget : ∀ f : ℕ → ℚ, (scalars n f).getD i 0 ∈ scalars n f := fun f =>
    getD_mem (by simpa using hi)
  exact ⟨isFinite_of_mem_scalars (hget _), isFinite_of_mem_scalars (hget _)⟩

theorem region_scalars {u : ℕ → ℚ} : Region gamma (scalars n nominal) (scalars n deviation) n u
    ↔ ∃ z : ℕ → ℚ, (∀ i < n, |z i| ≤ 1) ∧ ∑ i ∈ range n, |z i| ≤ gamma
      ∧ ∀ i < n, u i = nominal i + deviation i * z i := by
  refine exists_congr fun z => and_congr_right fun _ => and_congr_right fun _ =>
    forall₂_congr fun i hi => ?_
  simp [counts_scalars nominal deviation hi, hi]

/-- For finite nominal values and deviations that are not negative, the greedy worst case exists. It
uses admissible shares of the deviations, and no other admissible shares have a larger product with
the coefficients. -/
theorem worstCase_optimal {b : Budget Extended}
    (hdata : b.data = some (scalars n nominal, scalars n deviation))
    (hgamma : b.gamma = .finite gamma) (hg : 0 ≤ gamma) (hdev : ∀ i < n, 0 ≤ deviation i)
    (c : ℕ → ℚ) : ∃ z : ℕ → ℚ, (∀ i < n, |z i| ≤ 1) ∧ ∑ i ∈ range n, |z i| ≤ gamma
      ∧ b.worstCase (scalars n c) = .ok (scalars n fun i => nominal i + deviation i * z i)
      ∧ ∀ y : ℕ → ℚ, (∀ i < n, |y i| ≤ 1) → ∑ i ∈ range n, |y i| ≤ gamma →
        ∑ i ∈ range n, c i * (nominal i + deviation i * y i)
          ≤ ∑ i ∈ range n, c i * (nominal i + deviation i * z i) := by
  have hc : ∀ i < n, ¬ Counts (scalars n nominal) (scalars n deviation) i → c i = 0 :=
    fun i hi hn => absurd (counts_scalars nominal deviation hi) hn
  let z := used gamma (scalars n deviation) n c
  have hle : ∀ i, |z i| ≤ |greedy gamma (scalars n deviation) n c i| :=
    abs_used_le gamma (scalars n deviation) n c
  obtain ⟨-, hvalue⟩ := region_used hg hc (u := fun i => nominal i + deviation i * z i)
    fun i hi _ => by simp [z, hi]
  refine ⟨z, fun i hi => (hle i).trans (abs_greedy_le _ _ _ _ hi),
    (sum_le_sum fun i _ => hle i).trans (sum_abs_greedy_le _ _ _ _ hg), ?_, fun y hy hsum => ?_⟩
  · rw [worstCase_eq hdata hgamma (by simp) (by simp) hc]
    refine congrArg Except.ok (List.map_congr_left fun i hi => ?_)
    have hget : ∀ f : ℕ → ℚ, (scalars n f).getD i 0 = .finite (f i) := by
      intro f
      rw [List.getD_eq_getElem _ _ (by simpa using hi)]
      simp [scalars]
    simp only [hget, z, used]
    split_ifs <;> simp [Extended.zero_eq]
  · have hregion : Region gamma (scalars n nominal) (scalars n deviation) n fun i =>
        nominal i + deviation i * y i :=
      (region_scalars nominal deviation).mpr ⟨y, hy, hsum, fun _ _ => rfl⟩
    have hbound := sum_le_of_region hg (fun i hi _ => by simpa [hi] using hdev i hi) hc hregion
    simp only [mul_comm (c _)]
    exact hbound.trans_eq hvalue.symm

end WorstCase

end Budget

namespace Pantry

/-- Three goods with nominal prices and deviations, a budget of three halves and quantities. -/
def nominal (i : ℕ) : ℚ := i + 1

def deviation (i : ℕ) : ℚ := if i = 0 then 2 else 1

def budget : Budget Extended :=
  ⟨.finite (3 / 2), none, none, some (scalars 3 nominal, scalars 3 deviation)⟩

def quantity (i : ℕ) : ℚ := if i = 0 then 3 else if i = 1 then -8 else 0

/-- The second good, which is sold, becomes cheaper, and half of the budget is left for the first
one. -/
theorem budget_worstCase_optimal :
    (budget.worstCase (scalars 3 quantity)).toOption = some [.finite 2, .finite 1, .finite 3]
      ∧ ∀ y : ℕ → ℚ, (∀ i < 3, |y i| ≤ 1) → ∑ i ∈ range 3, |y i| ≤ 3 / 2 →
        ∑ i ∈ range 3, quantity i * (nominal i + deviation i * y i) ≤ -2 := by
  have heval : (budget.worstCase (scalars 3 quantity)).toOption
      = some [.finite 2, .finite 1, .finite 3] := by
    cbv
  obtain ⟨z, -, -, hok, hbest⟩ := Budget.worstCase_optimal nominal deviation (b := budget) rfl rfl
    (by norm_num) (fun i _ => by unfold deviation; split_ifs <;> norm_num) quantity
  refine ⟨heval, fun y hy hsum => (hbest y hy hsum).trans_eq ?_⟩
  rw [hok] at heval
  have hvalues : nominal 0 + deviation 0 * z 0 = 2 ∧ nominal 1 + deviation 1 * z 1 = 1
      ∧ nominal 2 + deviation 2 * z 2 = 3 := by
    simpa [scalars, List.range_succ, Except.toOption] using heval
  simp only [sum_range_succ, sum_range_zero, hvalues]
  norm_num [quantity]

end Pantry

namespace Budget

variable {n : ℕ} {gamma : ℚ}

/-! ## Prices -/

section Prices

variable {nominal deviation : List Extended} {side : Side Extended} {certain : Affine Extended}
  {ds : List (Decision Extended)} {supply : Supply} {w : ℕ → ℕ → ℚ} {o : ℕ → ℚ}

/-- Whatever the decision values are, the constraints of a side can be satisfied by some amounts,
nonnegative surpluses and a nonnegative price, if and only if the side holds for all values of the
set. An idle side has a single constraint and no new columns. -/
theorem exists_prices_iff (hg : 0 ≤ gamma) (hside : side.IsAffine n ds.length w o)
    (hcounts : ∀ i ∈ active side, Counts nominal deviation i)
    (hpos : ∀ i < n, Counts nominal deviation i → 0 ≤ Extended.coord deviation i)
    (hfin : certain.form.Finite) (hcertain : certain.Within (Decision.Owns ds))
    (hold : ∀ d, Decision.Owns ds d → d.serial < supply.serial) (rhs : ℚ) :
    ∃ cs next,
      reformulate (.finite gamma) nominal deviation side certain (.finite rhs) ds supply
        = .ok (cs, next)
      ∧ (∀ c ∈ cs, c.Within fun d => Decision.Owns ds d ∨ IsPrice supply (active side).length d)
      ∧ (Idle gamma deviation (active side) →
        next = supply ∧ cs.length = 1 ∧ ∀ c ∈ cs, c.Within (Decision.Owns ds))
      ∧ ∀ x : Point,
        (∃ y : Point, (∀ d : Column, d.serial < supply.serial → y d = x d)
          ∧ (∀ k < (active side).length, 0 ≤ y (supply.surplus k)) ∧ 0 ≤ y supply.price
          ∧ ∀ c ∈ cs, c.Holds y.exact)
        ↔ ∀ u, Region gamma nominal deviation n u →
          certain.form.valueAt x
            + ∑ i ∈ range n, affineAt w o ds.length (Decision.valuesAt ds x) i * u i ≤ rhs := by
  obtain ⟨cs, next, hok, -, hwithin, hidle, hrepresents⟩ := exists_represents hg hside hcounts hpos
    hold hcertain (fun y => Affine.eval_of_agree hfin hcertain fun _ _ => rfl) rhs
  refine ⟨cs, next, hok, fun c hc => (hwithin c hc).mono fun d => .imp_right And.left, hidle,
    fun x => ?_⟩
  have hsigned : ∀ y : Point, (∀ d, IsSigned supply (active side).length d → 0 ≤ y d)
      ↔ (∀ k < (active side).length, 0 ≤ y (supply.surplus k)) ∧ 0 ≤ y supply.price := by
    intro y
    refine ⟨fun h => ⟨fun k hk => h _ (.inl ⟨k, hk, rfl⟩), h _ (.inr rfl)⟩, ?_⟩
    rintro ⟨hsurplus, hprice⟩ d (⟨k, hk, rfl⟩ | rfl)
    exacts [hsurplus k hk, hprice]
  simpa only [hsigned, and_assoc, mul_comm, add_comm] using hrepresents.exists_iff x

end Prices

end Budget

namespace Pantry

/-- The amount of the first good. -/
def amount : Decision Extended :=
  ⟨0, 0, "x", .negInf, .posInf, ⟨0, none, .decision 0, false, false⟩⟩

/-- Prices of three goods and their deviations. Those of the third one are not known. -/
def prices : List Extended := [.finite 10, .finite 4, .undefined]

def spreads : List Extended := [.finite 2, .finite 1, .undefined]

/-- The bill for some amount of the first good and one unit of the second one. -/
def bill : Side Extended :=
  ⟨[[.finite 1], [.finite 0], [.finite 0]], [.finite 0, .finite 1, .finite 0], []⟩

theorem isAffine_bill : bill.IsAffine 3 1 (fun i _ => if i = 0 then 1 else 0)
    fun i => if i = 1 then 1 else 0 where
  linear := by simp [bill, scalars, List.range_succ]
  offset := by simp [bill, scalars, List.range_succ]
  sharp i hi j _ := by interval_cases i <;> decide +kernel

theorem active_bill : Budget.active bill = [0, 1] := by decide +kernel

theorem counts_iff {i : ℕ} (hi : i < 3) : Budget.Counts prices spreads i ↔ i < 2 := by
  unfold Budget.Counts
  interval_cases i <;> decide +kernel

theorem counts_active_bill : ∀ i ∈ Budget.active bill, Budget.Counts prices spreads i := by
  intro i hi
  have hi : i < 2 := by grind [active_bill]
  exact (counts_iff (by omega)).mpr hi

theorem region_iff {u : ℕ → ℚ} : Budget.Region (3 / 2) prices spreads 3 u ↔ ∃ z : ℕ → ℚ,
    (∀ i < 3, |z i| ≤ 1) ∧ |z 0| + |z 1| + |z 2| ≤ 3 / 2
      ∧ u 0 = 10 + 2 * z 0 ∧ u 1 = 4 + z 1 := by
  refine exists_congr fun z => and_congr_right fun _ => and_congr (by simp [sum_range_succ]) ?_
  constructor
  · intro h
    have h0 := h 0 (by norm_num) ((counts_iff (by norm_num)).mpr (by norm_num))
    have h1 := h 1 (by norm_num) ((counts_iff (by norm_num)).mpr (by norm_num))
    simpa [prices, spreads, Extended.coord] using And.intro h0 h1
  · rintro ⟨h0, h1⟩ i hi hcount
    have hi := (counts_iff hi).mp hcount
    interval_cases i <;> simp [prices, spreads, Extended.coord, h0, h1]

/-- The bill in numbers. -/
theorem bill_eq (x : Point) (u : ℕ → ℚ) :
    (Affine.constant (.finite 0)).form.valueAt x + ∑ i ∈ range 3,
        affineAt (fun i _ => if i = 0 then 1 else 0) (fun i => if i = 1 then 1 else 0)
          [amount].length (Decision.valuesAt [amount] x) i * u i
      = x amount.column * u 0 + u 1 := by
  simp [sum_range_succ, affineAt, Decision.valuesAt, Affine.form, LinearForm.valueAt]

/-- One unit of the first good and one of the second cost at most sixteen and a half, since the
budget does not allow both prices to rise fully. Two units can cost more. -/
theorem bill_exists_prices : ∃ cs next,
    Budget.reformulate (.finite (3 / 2)) prices spreads bill (.constant (.finite 0))
      (.finite (33 / 2)) [amount] ⟨1, 0⟩ = .ok (cs, next)
    ∧ (∃ y : Point, y amount.column = 1 ∧ (∀ k < 2, 0 ≤ y ((⟨1, 0⟩ : Supply).surplus k))
      ∧ 0 ≤ y (⟨1, 0⟩ : Supply).price ∧ ∀ c ∈ cs, c.Holds y.exact)
    ∧ ∀ y : Point, y amount.column = 2 → (∀ k < 2, 0 ≤ y ((⟨1, 0⟩ : Supply).surplus k)) →
      0 ≤ y (⟨1, 0⟩ : Supply).price → ¬ ∀ c ∈ cs, c.Holds y.exact := by
  have hgamma : (0 : ℚ) ≤ 3 / 2 := by norm_num
  have hfin : (Affine.constant (.finite 0)).form.Finite := ⟨rfl, by simp [Affine.form]⟩
  have hold : ∀ d, Decision.Owns [amount] d → d.serial < (⟨1, 0⟩ : Supply).serial := by
    simp [Decision.Owns, amount]
  obtain ⟨cs, next, hok, -, -, hiff⟩ := Budget.exists_prices_iff hgamma isAffine_bill
    counts_active_bill (fun i hi _ => by interval_cases i <;> decide +kernel) hfin (by simp) hold
    (33 / 2)
  simp only [active_bill, region_iff, bill_eq] at hiff
  refine ⟨cs, next, hok, ?_, fun y hy hsurplus hprice hholds => ?_⟩
  · obtain ⟨y, hyx, hy⟩ := (hiff fun _ => 1).mpr fun u hu => by
      obtain ⟨z, hz, hsum, h0, h1⟩ := hu
      have := le_abs_self (z 0)
      have := le_abs_self (z 1)
      have := abs_nonneg (z 2)
      linarith [hz 0 (by norm_num)]
    exact ⟨y, hyx _ (by simp [amount]), hy⟩
  · have hle := (hiff y).mp ⟨y, fun _ _ => rfl, hsurplus, hprice, hholds⟩
      (fun i => if i = 0 then 12 else 4) ⟨fun i => if i = 0 then 1 else 0, fun i _ => ?_, ?_⟩
    · norm_num [hy] at hle
    · by_cases hi : i = 0 <;> simp [hi]
    · norm_num

end Pantry

end RobustOpt
