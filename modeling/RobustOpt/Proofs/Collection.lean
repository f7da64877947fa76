import RobustOpt.Proofs.Accumulator
import RobustOpt.Proofs.Denotation

/-!
# Collected coefficients

Like terms are collected by adding them to a scratch accumulator. The coefficient of a parameter is
the sum of what was added to its index, cancellations leaving a trace, and the parameters are listed
in the order of their first terms that are not zero. For expressions in which no parameter occurs
twice the coefficients are exact.

## Main definitions

* `Accumulator.collected`: the items after contributions of numbers that are added exactly.
* `Uncertain.coefficient`: the exact coefficient of a parameter.
* `Uncertain.CollectsExactly`: the collected coefficients are the exact ones.

## Main statements

* `Uncertain.yields_collectIn`: collecting in a scratch accumulator.
* `Uncertain.collectsExactly_of_distinct`: different parameters are collected exactly.
-/

namespace RobustOpt

open Finset

/-! ## Contributions to an accumulator -/

namespace Accumulator

/-- The items of an accumulator in terms of the contributions to it. -/
def collected (ts : List (ℕ × Extended)) : List (ℕ × Extended) :=
  ((touched ts).filter fun i => Scalar.le Scalar.zeroTol (Scalar.abs (sums ts i))).map fun i =>
    (i, sums ts i)

theorem collected_eq_listed (ts : List (ℕ × Extended)) : collected ts = listed ts := by
  rw [collected, listed, sums_eq_level, touched_eq_entered]
  rfl

end Accumulator

/-! ## Collecting the terms of an expression -/

namespace Uncertain

variable (e : Uncertain Extended) {n : ℕ}

/-- The terms as contributions to the positions of their parameters. -/
def contributions : List (ℕ × Extended) := e.terms.map fun t => (t.1.index, t.2)

theorem contributions_eq : e.contributions = e.additions := rfl

/-- Collecting in a scratch accumulator that is empty once it is cleared. It ends up empty, unless
there is nothing to collect. -/
theorem yields_collectIn (acc : Accumulator Extended) (hclear : acc.clear = .empty n)
    (hlt : ∀ t ∈ e.terms, t.1.index < n) :
    e.collectIn.Yields acc (Accumulator.collected e.contributions)
      (if e.terms.isEmpty then acc else .empty n) := by
  rw [Accumulator.collected_eq_listed, contributions_eq]
  exact e.yields_collectIn_listed acc hclear hlt

/-- What is collected does not depend on the accumulator. -/
theorem collect_eq : e.collect = Accumulator.collected e.contributions := by
  rw [e.collect_eq_listed, Accumulator.collected_eq_listed, contributions_eq]

/-! ## Exact coefficients -/

/-- A sum over the items with a key that only one item has. -/
theorem sum_map_ite_of_nodup {β : Type} (key : β → ℕ) (f : β → ℚ) {l : List β}
    (h : (l.map key).Nodup) {b : β} (hb : b ∈ l) :
    (l.map fun a => if key a = key b then f a else 0).sum = f b := by
  induction l with
  | nil => cases hb
  | cons a l ih =>
    obtain ⟨ha, hl⟩ := List.nodup_cons.mp h
    rw [List.map_cons, List.sum_cons]
    rcases List.mem_cons.mp hb with rfl | hb
    · have hrest : (l.map fun a => if key a = key b then f a else 0).sum = 0 := by
        refine List.sum_eq_zero (List.forall_mem_map.mpr fun c hc => if_neg fun heq => ha ?_)
        exact heq ▸ List.mem_map_of_mem hc
      rw [if_pos rfl, hrest, add_zero]
    · have hne : key a ≠ key b := fun heq => ha (heq ▸ List.mem_map_of_mem hb)
      rw [if_neg hne, ih hl hb, zero_add]

/-- The exact coefficient of the parameter at a position. -/
def coefficient (i : ℕ) : ℚ := (e.terms.map fun t => if t.1.index = i then t.2.rat else 0).sum

/-- The coefficients of all parameters give the value without the constant. -/
theorem sum_coefficient (hlt : ∀ t ∈ e.terms, t.1.index < n) (u : ℕ → ℚ) :
    ∑ i ∈ range n, e.coefficient i * u i = e.homogeneous.denote u := by
  obtain ⟨terms, constant⟩ := e
  simp only [denote, homogeneous, Extended.rat_zero, zero_add, coefficient]
  induction terms with
  | nil => simp
  | cons t terms ih =>
    obtain ⟨ht, hterms⟩ := List.forall_mem_cons.mp hlt
    simp only [List.map_cons, List.sum_cons, add_mul, sum_add_distrib, ih hterms, ite_mul, zero_mul]
    rw [sum_ite_eq, if_pos (mem_range.mpr ht)]

/-- The collected coefficients are the exact ones, and those that are left out are zero. -/
structure CollectsExactly : Prop where
  exact : ∀ t ∈ e.collect, t.2 = .finite (e.coefficient t.1)
  complete : ∀ i, i ∉ e.collect.map Prod.fst → e.coefficient i = 0

variable {e}

theorem CollectsExactly.homogeneous (h : e.CollectsExactly) : e.homogeneous.CollectsExactly :=
  ⟨h.exact, h.complete⟩

/-- Terms of different parameters, with coefficients that are zero or not negligible, are collected
exactly. -/
theorem collectsExactly_of_distinct (hnodup : (e.terms.map fun t => t.1.index).Nodup)
    (hsharp : ∀ t ∈ e.terms, Scalar.isSharp t.2 = true) : e.CollectsExactly := by
  have hkeys : (e.contributions.map Prod.fst).Nodup := by
    rwa [contributions, List.map_map]
  have hsum : ∀ t ∈ e.terms, Accumulator.sums e.contributions t.1.index = t.2 := fun t ht =>
    Accumulator.sums_eq_of_nodup hkeys (t := (t.1.index, t.2)) (List.mem_map_of_mem ht)
  have hcoef : ∀ t ∈ e.terms, e.coefficient t.1.index = t.2.rat := fun t ht =>
    sum_map_ite_of_nodup (fun t : Parameter Extended × Extended => t.1.index) (fun t => t.2.rat)
      hnodup ht
  constructor
  · rw [collect_eq]
    intro s hs
    obtain ⟨i, hi, rfl⟩ := List.mem_map.mp hs
    obtain ⟨x, hx, -⟩ := (Accumulator.mem_touched _).mp (List.mem_of_mem_filter hi)
    obtain ⟨t, ht, heq⟩ := List.mem_map.mp hx
    obtain ⟨rfl, rfl⟩ := Prod.mk.inj heq
    simp only [hsum t ht, hcoef t ht]
    exact (Extended.finite_rat (Extended.isFinite_of_isSharp (hsharp t ht))).symm
  · intro i hi
    by_cases hex : ∃ t ∈ e.terms, t.1.index = i
    · obtain ⟨t, ht, rfl⟩ := hex
      rw [hcoef t ht]
      by_contra hne
      have hle : Scalar.le Scalar.zeroTol (Scalar.abs t.2) = true := by
        simpa [Scalar.negligible] using mt (Extended.rat_eq_zero_of_negligible (hsharp t ht)) hne
      have htouched : t.1.index ∈ Accumulator.touched e.contributions :=
        (Accumulator.mem_touched _).mpr ⟨t.2, List.mem_map_of_mem ht, fun h => hne (by simp [h])⟩
      refine hi (List.mem_map_of_mem (f := Prod.fst) (a := (t.1.index, t.2)) ?_)
      rw [collect_eq, Accumulator.collected]
      refine List.mem_map.mpr ⟨t.1.index, List.mem_filter.mpr ⟨htouched, ?_⟩, ?_⟩ <;>
        simp [hsum t ht, hle]
    · refine List.sum_eq_zero (List.forall_mem_map.mpr fun t ht => if_neg fun h => hex ⟨t, ht, h⟩)

/-- Collected coefficients written to their positions. -/
theorem CollectsExactly.foldl_set (h : e.CollectsExactly) (n : ℕ) :
    e.collect.foldl (fun row p => row.set p.1 p.2) (List.replicate n 0)
      = (List.range n).map fun i => .finite (e.coefficient i) := by
  have hzero : List.replicate n (0 : Extended) = (List.range n).map fun _ => 0 :=
    List.ext_getElem (by simp) fun i _ _ => by simp
  have hkeys : e.collect
      = (e.collect.map Prod.fst).map fun i => (i, Extended.finite (e.coefficient i)) := by
    rw [List.map_map]
    exact (List.map_id _).symm.trans (List.map_congr_left fun t ht => Prod.ext rfl (h.exact t ht))
  rw [hkeys, List.foldl_map, hzero, foldl_set_map_range]
  refine List.map_congr_left fun i _ => ?_
  split_ifs with hi
  · rfl
  · rw [h.complete i hi, Extended.zero_eq]

end Uncertain

end RobustOpt
