import Mathlib.Algebra.BigOperators.Fin
import Mathlib.Algebra.Order.Field.Rat
import Mathlib.Data.List.GetD
import Mathlib.Tactic.Linarith
import Mathlib.Tactic.Ring
import RobustOpt.Scalar.Extended

/-!
# Exact arithmetic

Finite extended rationals compute as rationals do. Results that are finite come from finite
arguments, so a finite outcome certifies all that went into it.

## Main definitions

* `Extended.rat`: the rational value of a finite scalar.
* `Extended.coord`: the rational entry of a list at a position.
* `Extended.pairing`: the rational inner product of two lists.
* `Scalar.isSharp`: finite, and zero or not negligible.

## Main statements

* `Extended.foldl_eq_sum`: a running sum of finite terms.
* `Extended.dot_eq_pairing`, `Extended.pairing_eq_sum`: the inner product of finite lists.
-/

namespace RobustOpt

/-- A finite scalar that is no negligible nonzero one. -/
def Scalar.isSharp {α : Type} [Scalar α] (x : α) : Bool :=
  Scalar.isFinite x && (Scalar.isZero x || !Scalar.negligible x)

/-- A list is read position by position. -/
theorem map_eq_map_range {β γ : Type} (f : β → γ) (d : β) (l : List β) :
    l.map f = (List.range l.length).map fun i => f (l.getD i d) := by
  refine List.ext_getElem (by simp) fun i hi _ => ?_
  have : i < l.length := by simpa using hi
  simp [this]

theorem getD_mem {β : Type} {l : List β} {d : β} {i : ℕ} (h : i < l.length) : l.getD i d ∈ l := by
  rw [List.getD_eq_getElem _ _ h]
  exact List.getElem_mem h

namespace Extended

/-- The rational value of a finite scalar, zero for the special values. -/
def rat : Extended → ℚ
  | finite q => q
  | _ => 0

@[simp] theorem rat_finite (q : ℚ) : (finite q).rat = q := rfl

theorem zero_eq : (0 : Extended) = finite 0 := rfl

theorem one_eq : (1 : Extended) = finite 1 := rfl

@[simp] theorem rat_zero : (0 : Extended).rat = 0 := rfl

@[simp] theorem rat_one : (1 : Extended).rat = 1 := rfl

@[simp] theorem isFinite_finite (q : ℚ) : Scalar.isFinite (finite q) = true := rfl

@[simp] theorem isFinite_zero : Scalar.isFinite (0 : Extended) = true := rfl

@[simp] theorem isFinite_one : Scalar.isFinite (1 : Extended) = true := rfl

theorem isFinite_iff {x : Extended} : Scalar.isFinite x = true ↔ ∃ q, x = finite q := by
  cases x <;> simp [Scalar.isFinite, Scalar.toRat?, toRat?]

@[simp] theorem finite_rat {x : Extended} (h : Scalar.isFinite x = true) : finite x.rat = x := by
  obtain ⟨q, rfl⟩ := isFinite_iff.mp h
  rfl

/-! ## Operations on finite scalars -/

@[simp] theorem finite_sub (p q : ℚ) : finite p - finite q = finite (p - q) := by
  show finite (p + -q) = finite (p - q)
  rw [sub_eq_add_neg]

@[simp] theorem finite_div {p q : ℚ} (h : q ≠ 0) : finite p / finite q = finite (p / q) := by
  show mul (finite p) (inv (finite q)) = finite (p / q)
  simp [inv, h, mul, div_eq_mul_inv]

@[simp] theorem lt_finite (p q : ℚ) : Scalar.lt (finite p) (finite q) = decide (p < q) := rfl

@[simp] theorem eq_finite (p q : ℚ) : Scalar.eq (finite p) (finite q) = decide (p = q) := rfl

@[simp] theorem le_finite (p q : ℚ) : Scalar.le (finite p) (finite q) = decide (p ≤ q) := by
  show (decide (p < q) || decide (p = q)) = decide (p ≤ q)
  simp [le_iff_lt_or_eq]

@[simp] theorem isZero_finite (q : ℚ) : Scalar.isZero (finite q) = decide (q = 0) := rfl

@[simp] theorem isNaN_finite (q : ℚ) : Scalar.isNaN (finite q) = false := by
  simp [Scalar.isNaN]

@[simp] theorem abs_finite (q : ℚ) : Scalar.abs (finite q) = finite |q| := by
  show finite (if q < 0 then -q else q) = finite |q|
  split_ifs with h
  · rw [abs_of_neg h]
  · rw [abs_of_nonneg (not_lt.mp h)]

@[simp] theorem half_finite (q : ℚ) : Scalar.half (finite q) = finite (q / 2) :=
  finite_div two_ne_zero

@[simp] theorem toFinite_finite (q : ℚ) : Scalar.toFinite (finite q) = finite q := by
  simp [Scalar.toFinite]

@[simp] theorem isFinite_toFinite (x : Extended) : Scalar.isFinite (Scalar.toFinite x) = true := by
  cases x with
  | finite q => simp
  | posInf | negInf | undefined => rfl

protected theorem add_zero (x : Extended) : x + 0 = x := by
  cases x with
  | finite q => exact congrArg finite (Rat.add_zero q)
  | posInf | negInf | undefined => rfl

theorem isZero_iff {x : Extended} : Scalar.isZero x = true ↔ x = 0 := by
  cases x <;> simp [Scalar.isZero, Scalar.eq, eq, zero_eq]

/-! ## Finite results -/

theorem isFinite_add {x y : Extended} :
    Scalar.isFinite (x + y) = true ↔ Scalar.isFinite x = true ∧ Scalar.isFinite y = true := by
  show Scalar.isFinite (add x y) = true ↔ _
  cases x <;> cases y <;> simp [add, Scalar.isFinite, Scalar.toRat?, toRat?]

theorem isFinite_mul {x y : Extended} :
    Scalar.isFinite (x * y) = true ↔ Scalar.isFinite x = true ∧ Scalar.isFinite y = true := by
  show Scalar.isFinite (mul x y) = true ↔ _
  cases x <;> cases y <;> simp [mul, infinityOfSign, Scalar.isFinite, Scalar.toRat?, toRat?] <;>
    split_ifs <;> simp [neg]

theorem isFinite_neg {x : Extended} :
    Scalar.isFinite (-x) = true ↔ Scalar.isFinite x = true := by
  show Scalar.isFinite (neg x) = true ↔ _
  cases x <;> simp [neg, Scalar.isFinite, Scalar.toRat?, toRat?]

theorem rat_add {x y : Extended} (hx : Scalar.isFinite x = true) (hy : Scalar.isFinite y = true) :
    (x + y).rat = x.rat + y.rat := by
  obtain ⟨p, rfl⟩ := isFinite_iff.mp hx
  obtain ⟨q, rfl⟩ := isFinite_iff.mp hy
  simp

theorem rat_mul {x y : Extended} (hx : Scalar.isFinite x = true) (hy : Scalar.isFinite y = true) :
    (x * y).rat = x.rat * y.rat := by
  obtain ⟨p, rfl⟩ := isFinite_iff.mp hx
  obtain ⟨q, rfl⟩ := isFinite_iff.mp hy
  simp

theorem rat_neg {x : Extended} (hx : Scalar.isFinite x = true) : (-x).rat = -x.rat := by
  obtain ⟨p, rfl⟩ := isFinite_iff.mp hx
  simp

/-! ## Sharp scalars -/

theorem zeroTol_eq : (Scalar.zeroTol : Extended) = finite (mkRat 1 (Nat.pow 10 20)) := rfl

theorem isFinite_of_isSharp {x : Extended} (h : Scalar.isSharp x = true) :
    Scalar.isFinite x = true := by
  simp only [Scalar.isSharp, Bool.and_eq_true] at h
  exact h.1

/-- A sharp scalar that counts as negligible is zero. -/
theorem rat_eq_zero_of_negligible {x : Extended} (h : Scalar.isSharp x = true)
    (hn : Scalar.negligible x = true) : x.rat = 0 := by
  simp only [Scalar.isSharp, Bool.and_eq_true, Bool.or_eq_true, hn] at h
  rcases h.2 with hz | hz
  · rw [isZero_iff.mp hz, rat_zero]
  · simp at hz

/-- A sign does not change whether a scalar is sharp. -/
theorem isSharp_sign_mul {s x : Extended} (hs : s = finite 1 ∨ s = finite (-1))
    (h : Scalar.isSharp x = true) : Scalar.isSharp (s * x) = true := by
  obtain ⟨q, rfl⟩ := isFinite_iff.mp (isFinite_of_isSharp h)
  rcases hs with rfl | rfl <;>
    simpa [Scalar.isSharp, Scalar.negligible, zeroTol_eq] using h

/-! ## Sums -/

/-- A running sum whose steps add finite amounts. -/
theorem foldl_eq_sum {β : Type} {step : Extended → β → Extended} {g : β → ℚ} (l : List β)
    (h : ∀ b ∈ l, ∀ q, step (finite q) b = finite (q + g b)) (q : ℚ) :
    l.foldl step (finite q) = finite (q + (l.map g).sum) := by
  induction l generalizing q with
  | nil => simp
  | cons b l ih =>
    rw [List.foldl_cons, h b (by simp), ih fun c hc => h c (by simp [hc])]
    simp [add_assoc]

/-- The rational entry of a list at a position. -/
def coord (xs : List Extended) (i : ℕ) : ℚ := (xs.getD i 0).rat

@[simp] theorem coord_nil (i : ℕ) : coord [] i = 0 := rfl

@[simp] theorem coord_cons_zero (x : Extended) (xs : List Extended) :
    coord (x :: xs) 0 = x.rat := rfl

@[simp] theorem coord_cons_succ (x : Extended) (xs : List Extended) (i : ℕ) :
    coord (x :: xs) (i + 1) = coord xs i := rfl

theorem coord_of_mem {P : Extended → Prop} {xs : List Extended} (h : ∀ x ∈ xs, P x) {i : ℕ}
    (hi : i < xs.length) : P (xs.getD i 0) := by
  rw [List.getD_eq_getElem _ _ hi]
  exact h _ (List.getElem_mem hi)

theorem finite_coord {xs : List Extended} (h : ∀ x ∈ xs, Scalar.isFinite x = true) (i : ℕ) :
    finite (coord xs i) = xs.getD i 0 := by
  refine finite_rat ?_
  rcases lt_or_ge i xs.length with hi | hi
  · exact coord_of_mem h hi
  · simp [List.getD_eq_getElem?_getD, hi]

@[simp] theorem coord_map_range {n i : ℕ} (f : ℕ → ℚ) (h : i < n) :
    coord ((List.range n).map fun k => finite (f k)) i = f i := by
  simp [coord, List.getD_eq_getElem?_getD, h]

/-- The rational inner product of two lists. -/
def pairing (xs ys : List Extended) : ℚ := (List.zipWith (fun x y => x.rat * y.rat) xs ys).sum

@[simp] theorem pairing_nil_left (ys : List Extended) : pairing [] ys = 0 := rfl

@[simp] theorem pairing_nil_right (xs : List Extended) : pairing xs [] = 0 := by
  simp [pairing]

@[simp] theorem pairing_cons (x y : Extended) (xs ys : List Extended) :
    pairing (x :: xs) (y :: ys) = x.rat * y.rat + pairing xs ys := by
  simp [pairing]

/-- The inner product of finite lists. -/
theorem dot_eq_pairing (xs ys : List Extended) (hx : ∀ x ∈ xs, Scalar.isFinite x = true)
    (hy : ∀ y ∈ ys, Scalar.isFinite y = true) : Scalar.dot xs ys = finite (pairing xs ys) := by
  suffices h : ∀ q, (List.zipWith (· * ·) xs ys).foldl (· + ·) (finite q)
      = finite (q + pairing xs ys) by
    simpa [Scalar.dot, Scalar.sum, zero_eq] using h 0
  induction xs generalizing ys with
  | nil => simp
  | cons x xs ih =>
    cases ys with
    | nil => simp
    | cons y ys =>
      intro q
      obtain ⟨a, rfl⟩ := isFinite_iff.mp (hx x (by simp))
      obtain ⟨b, rfl⟩ := isFinite_iff.mp (hy y (by simp))
      rw [List.zipWith_cons_cons, List.foldl_cons, finite_mul, finite_add,
        ih ys (fun z hz => hx z (by simp [hz])) (fun z hz => hy z (by simp [hz]))]
      simp [add_assoc]

/-- The inner product as a sum over any range that covers one of the lists. -/
theorem pairing_eq_sum {n : ℕ} (xs ys : List Extended) (hn : min xs.length ys.length ≤ n) :
    pairing xs ys = ∑ i ∈ Finset.range n, coord xs i * coord ys i := by
  induction xs generalizing ys n with
  | nil => simp
  | cons x xs ih =>
    cases ys with
    | nil => simp
    | cons y ys =>
      obtain ⟨m, rfl⟩ : ∃ m, n = m + 1 := ⟨n - 1, by simp at hn; omega⟩
      rw [pairing_cons, ih (n := m) ys (by simp at hn; omega), Finset.sum_range_succ']
      simp only [coord_cons_succ, coord_cons_zero]
      ring

end Extended

end RobustOpt
