import RobustOpt.Proofs.Geometry

/-!
# Three readings of one form

A reformulation reads a side of a form off its dense rows, a cut reads it off its sparse rows: the
violation from the coefficients that the parameters have at the present decisions, the cut itself
from those that the decisions have at the worst parameters. At every point the three readings have
the value of the form, and the expressions written from them do.

## Main definitions

* `Bilinear.Reading`: the coefficients that the program computes, as rationals.

## Main statements

* `Bilinear.Reading.exists_of`: every canonical form is read, whatever the sign and the point.
* `Bilinear.exists_reading`: the readings agree with each other and with the form.
-/

namespace RobustOpt

open Finset

namespace Bilinear

/-- Coefficients of a side at parameter values `u` and decision values `x`: of the parameters at
`x`, of the decisions at `u`, and of both before anything was substituted. -/
structure Reading where
  slopes : ℕ → ℚ
  certain : ℚ
  weights : ℕ → ℚ
  linear : ℕ → ℕ → ℚ
  offset : ℕ → ℚ
  rest : ℕ → ℚ

namespace Reading

variable {q : SparseMatrix Extended} {n m : ℕ} {sign : ℚ} {u x : ℕ → ℚ}

/-- The numbers are what the program computes from a form. -/
structure Of (r : Reading) (q : SparseMatrix Extended) (n m : ℕ) (sign : ℚ) (u x : ℕ → ℚ) :
    Prop where
  sensitivity : sensitivity q (.finite sign) (scalars m x ++ [1])
    = (scalars n r.slopes, .finite r.certain)
  substitute : substitute q (.finite sign) (scalars n u) = scalars (m + 1) r.weights
  split : splitSide? q.toDense (.finite sign) n
    = .ok ⟨(List.range n).map fun i => scalars m (r.linear i), scalars n r.offset,
        scalars (m + 1) r.rest⟩

/-- Nothing in a canonical form keeps it from being read. -/
theorem exists_of (hq : Shaped q n m) (sign : ℚ) (u x : ℕ → ℚ) :
    ∃ r : Reading, r.Of q n m sign u x
      ∧ r.slopes = slope q m sign x ∧ r.certain = slope q m sign x n
      ∧ r.weights = weight q n sign u
      ∧ (∀ i, affineAt r.linear r.offset m x i = slope q m sign x i)
      ∧ ∑ j ∈ range m, r.rest j * x j + r.rest m = slope q m sign x n := by
  refine ⟨⟨slope q m sign x, slope q m sign x n, weight q n sign u, fun i j => sign * q.coef i j,
    fun i => sign * q.coef i m, fun j => sign * q.coef n j⟩, ⟨?_, ?_, ?_⟩, rfl, rfl, rfl, ?_, ?_⟩
  · exact sensitivity_spec hq rfl x
  · exact substitute_spec hq rfl u
  · exact splitSide_spec hq rfl
  · exact fun i => (slope_eq_affineAt q m sign x i).symm
  · exact (slope_eq_sum q m sign x n).symm

end Reading

variable {q : SparseMatrix Extended} {n m : ℕ}

/-- Whatever the sign and the point, the coefficients of the parameters are the affine functions of
the split side, and the three readings have the value of the form. The expressions written for
decision variables have the same values where the variables have the values `x`, if no coefficient
they are written from is negligible without being zero. -/
theorem exists_reading (hq : Shaped q n m) (sign : ℚ) (u x : ℕ → ℚ) :
    ∃ r : Reading, r.Of q n m sign u x
      ∧ (∀ i < n, r.slopes i = affineAt r.linear r.offset m x i)
      ∧ r.certain = ∑ j ∈ range m, r.rest j * x j + r.rest m
      ∧ ∑ i ∈ range n, r.slopes i * u i + r.certain = valueAt q n m sign u x
      ∧ ∑ j ∈ range m, r.weights j * x j + r.weights m = valueAt q n m sign u x
      ∧ ∑ i ∈ range n, affineAt r.linear r.offset m x i * u i
          + (∑ j ∈ range m, r.rest j * x j + r.rest m) = valueAt q n m sign u x
      ∧ ∀ ds : List (Decision Extended), ds.length = m →
        ((∀ i < n, ∀ j < m, Scalar.isSharp (.finite (r.linear i j) : Extended) = true) →
          ∃ es : ℕ → Affine Extended,
            Affine.ofMap ((List.range n).map fun i => scalars m (r.linear i))
              (scalars n r.offset) ds = .ok ((List.range n).map es)
            ∧ ∀ y : Point, (∀ j < m, Decision.valuesAt ds y j = x j) →
              ∀ i < n, (es i).eval y.exact = .finite (r.slopes i))
        ∧ ((∀ j < m, Scalar.isSharp (.finite (r.weights j) : Extended) = true) →
          ∃ e, Affine.ofCoefficients (scalars (m + 1) r.weights) ds = .ok e
            ∧ ∀ y : Point, (∀ j < m, Decision.valuesAt ds y j = x j) →
              e.eval y.exact = .finite (∑ j ∈ range m, r.weights j * x j + r.weights m)) := by
  obtain ⟨r, hof, hslopes, hcertain, hweights, haffine, hrest⟩ := Reading.exists_of hq sign u x
  have hvalue : ∑ i ∈ range n, slope q m sign x i * u i + slope q m sign x n
      = valueAt q n m sign u x := by
    simp only [valueAt_eq_slope, mul_comm]
  -- a linear combination of values of decision variables is one of the entries of `x`
  have hpoint : ∀ {ds : List (Decision Extended)} {y : Point},
      (∀ j < m, Decision.valuesAt ds y j = x j) → ∀ w : ℕ → ℚ,
        ∑ j ∈ range m, w j * Decision.valuesAt ds y j = ∑ j ∈ range m, w j * x j :=
    fun hy w => sum_congr rfl fun j hj => by rw [hy j (mem_range.mp hj)]
  refine ⟨r, hof, ?_, ?_, ?_, ?_, ?_, fun ds hds => ⟨fun hsharp => ?_, fun hsharp => ?_⟩⟩
  · intro i _
    rw [hslopes, haffine]
  · rw [hcertain, hrest]
  · rw [hslopes, hcertain, hvalue]
  · simp only [hweights, valueAt_eq_weight, mul_comm]
  · simp only [haffine]
    rw [hrest, hvalue]
  · obtain ⟨es, hes, heval⟩ := Affine.ofMap_spec ds (List.range n) r.linear r.offset hds
      fun i hi => hsharp i (List.mem_range.mp hi)
    refine ⟨es, hes, fun y hy i hi => ?_⟩
    rw [(heval i (List.mem_range.mpr hi)).2 y, hpoint hy, hslopes, ← haffine i]
    rfl
  · obtain ⟨e, he, -, heval⟩ := Affine.ofCoefficients_spec ds r.weights hds hsharp
    exact ⟨e, he, fun y hy => by rw [heval y, hpoint hy]⟩

end Bilinear

/-! ## A form with an empty row -/

namespace Courier

/-- Two delivery rates and one load: `(3 + 2 x) a + 5 x`, in which the second rate does not
occur. -/
def form : SparseMatrix Extended where
  rows := [[(0, .finite 2), (1, .finite 3)], [], [(0, .finite 5)]]
  width := 2

def load : Decision Extended :=
  ⟨0, 0, "x", .finite 0, .posInf, ⟨0, none, .decision 0, false, false⟩⟩

theorem form_shaped : Bilinear.Shaped form 2 1 := by
  refine ⟨⟨fun row hrow => ?_, by decide, by unfold SparseMatrix.Finite; decide⟩, rfl, rfl⟩
  simp only [form, List.mem_cons, List.not_mem_nil, or_false] at hrow
  rcases hrow with rfl | rfl | rfl <;> simp [SparseMatrix.Ordered]

end Courier

/-- The side turned round where both rates are one and the load is four: all that is written for it
has the values of the form. -/
theorem courier_exists_reading : Bilinear.Shaped Courier.form 2 1
    ∧ ∃ r : Bilinear.Reading, r.Of Courier.form 2 1 (-1) (fun _ => 1) (fun _ => 4)
      ∧ ∑ i ∈ range 2, r.slopes i * 1 + r.certain = -31
      ∧ (∃ es : ℕ → Affine Extended,
        Affine.ofMap [[.finite (r.linear 0 0)], [.finite (r.linear 1 0)]]
          [.finite (r.offset 0), .finite (r.offset 1)] [Courier.load] = .ok [es 0, es 1]
        ∧ ∀ y : Point, y Courier.load.column = 4 → (es 0).eval y.exact = .finite (r.slopes 0))
      ∧ ∃ e, Affine.ofCoefficients [.finite (r.weights 0), .finite (r.weights 1)] [Courier.load]
          = .ok e
        ∧ ∀ y : Point, y Courier.load.column = 4 → e.eval y.exact = .finite (-31) := by
  have hvalue : Bilinear.valueAt Courier.form 2 1 (-1) (fun _ => 1) (fun _ => 4) = -31 := by
    decide +kernel
  obtain ⟨r, hof, -, -, hslopes, hweights, -, hexpr⟩ :=
    Bilinear.exists_reading Courier.form_shaped (-1) (fun _ => 1) fun _ => 4
  obtain ⟨hmap, hcoefficients⟩ := hexpr [Courier.load] rfl
  have hsplit : (Bilinear.splitSide? Courier.form.toDense (.finite (-1)) 2).toOption.map
      Bilinear.Side.linear = some [[.finite (-2)], [.finite 0]] := by decide +kernel
  have hlinear : r.linear 0 0 = -2 ∧ r.linear 1 0 = 0 := by
    simpa [hof.split, Except.toOption, Bilinear.scalars, List.range_succ] using hsplit
  have hsubst : Bilinear.substitute Courier.form (.finite (-1)) (Bilinear.scalars 2 fun _ => 1)
      = [.finite (-7), .finite (-3)] := by decide +kernel
  have hweight : r.weights 0 = -7 ∧ r.weights 1 = -3 := by
    simpa [Bilinear.scalars, List.range_succ] using hof.substitute.symm.trans hsubst
  obtain ⟨es, hes, heval⟩ := hmap fun i hi j hj => by
    obtain rfl : j = 0 := by omega
    obtain rfl | rfl : i = 0 ∨ i = 1 := by omega
    all_goals
      simp only [hlinear]
      decide +kernel
  obtain ⟨e, he, hwritten⟩ := hcoefficients fun j hj => by
    obtain rfl : j = 0 := by omega
    rw [hweight.1]
    decide +kernel
  have hpoint : ∀ y : Point, y Courier.load.column = 4 →
      ∀ j < 1, Decision.valuesAt [Courier.load] y j = 4 := by
    intro y hy j hj
    obtain rfl : j = 0 := by omega
    exact hy
  refine ⟨Courier.form_shaped, r, hof, hslopes.trans hvalue,
    ⟨es, by simpa [Bilinear.scalars, List.range_succ] using hes, fun y hy => ?_⟩,
    e, by simpa [Bilinear.scalars, List.range_succ] using he, fun y hy => ?_⟩
  · exact heval y (hpoint y hy) 0 (by decide)
  · rw [hwritten y (hpoint y hy), hweights, hvalue]

end RobustOpt
