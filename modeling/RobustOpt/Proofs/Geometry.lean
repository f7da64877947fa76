import RobustOpt.Proofs.Encoding

/-!
# What a kind of set has to get right

A set contributes the worst case of a linear function and the constraints equivalent to one side
of a form. If both are right for the values the parameters can take, so are the cuts and the
reformulations made of them, for any form that fits.

## Main definitions

* `Bilinear.Side.IsAffine`: the coefficients of the parameters in a side.
* `Bilinear.Side.HasEntries`, `Bilinear.writtenAt`: the same for coefficients of any size.
* `Geometry.Maximizes`: the worst cases are right for a set of parameter values.
* `Geometry.Exact`: worst case and reformulation are right for a set of parameter values.
* `CuttingPlane.SharpCut`: the cut of a side at a point has no negligible coefficients.

## Main statements

* `CuttingPlane.reformSide_spec`: a reformulated side says that the side holds for all values.
* `CuttingPlane.exists_sideCut`: what is answered for a side whose worst case is known.
* `CuttingPlane.sideCut_spec`: a side is cut off where its worst case violates it.
-/

namespace RobustOpt

open Finset Bilinear

/-- The parts of a signed form. -/
def Bilinear.signedSide (q : SparseMatrix Extended) (n m : ℕ) (sign : ℚ) : Side Extended where
  linear := (List.range n).map fun i => scalars m fun j => sign * q.coef i j
  offset := (List.range n).map fun i => .finite (sign * q.coef i m)
  certain := scalars (m + 1) fun j => sign * q.coef n j

/-- The coefficient of a parameter at decision values `x`, if the one of decision variable `j` in it
is `w i j` and its constant `o i`. -/
def Bilinear.affineAt (w : ℕ → ℕ → ℚ) (o : ℕ → ℚ) (m : ℕ) (x : ℕ → ℚ) (i : ℕ) : ℚ :=
  ∑ j ∈ range m, w i j * x j + o i

theorem Bilinear.slope_eq_affineAt (q : SparseMatrix Extended) (m : ℕ) (sign : ℚ) (x : ℕ → ℚ)
    (i : ℕ) : slope q m sign x i
      = affineAt (fun i j => sign * q.coef i j) (fun i => sign * q.coef i m) m x i :=
  slope_eq_sum q m sign x i

/-- A side in which the coefficients of `n` parameters are affine in `m` decision variables, with
matrix entries that are zero or not negligible. -/
structure Bilinear.Side.IsAffine (side : Side Extended) (n m : ℕ) (w : ℕ → ℕ → ℚ) (o : ℕ → ℚ) :
    Prop where
  linear : side.linear = (List.range n).map fun i => scalars m (w i)
  offset : side.offset = scalars n o
  sharp : ∀ i < n, ∀ j < m, Scalar.isSharp (Extended.finite (w i j)) = true

/-- A side with the matrix entries `w` and the constants `o`, whatever their size. -/
structure Bilinear.Side.HasEntries (side : Side Extended) (n m : ℕ) (w : ℕ → ℕ → ℚ) (o : ℕ → ℚ) :
    Prop where
  linear : side.linear = (List.range n).map fun i => scalars m (w i)
  offset : side.offset = scalars n o

theorem Bilinear.Side.IsAffine.hasEntries {side : Side Extended} {n m : ℕ} {w : ℕ → ℕ → ℚ}
    {o : ℕ → ℚ} (h : side.IsAffine n m w o) : side.HasEntries n m w o := ⟨h.linear, h.offset⟩

/-- The coefficient of a parameter at decision values as it is written, without the decision
variables that are left out. -/
def Bilinear.writtenAt (w : ℕ → ℕ → ℚ) (o : ℕ → ℚ) (n m : ℕ) (x : ℕ → ℚ) (i : ℕ) : ℚ :=
  affineAt (Affine.kept (List.range n) w) o m x i

/-- The coefficients of an affine side are written as they are. -/
theorem Bilinear.Side.IsAffine.writtenAt_eq {side : Side Extended} {n m : ℕ} {w : ℕ → ℕ → ℚ}
    {o : ℕ → ℚ} (h : side.IsAffine n m w o) (x : ℕ → ℚ) {i : ℕ} (hi : i < n) :
    writtenAt w o n m x i = affineAt w o m x i := by
  unfold writtenAt affineAt
  congr 1
  refine sum_congr rfl fun j hj => ?_
  rw [Affine.kept_of_sharp (List.mem_range.mpr hi) (h.sharp i hi j (mem_range.mp hj))]

theorem Bilinear.isAffine_signedSide {q : SparseMatrix Extended} {n m : ℕ} {s : Extended}
    (hq : Fits q n m) (hs : IsSign s) : (signedSide q n m s.rat).IsAffine n m
      (fun i j => s.rat * q.coef i j) fun i => s.rat * q.coef i m where
  linear := rfl
  offset := rfl
  sharp _ hi j _ := hq.isSharp_coef hs (by omega) j

theorem Bilinear.hasEntries_signedSide (q : SparseMatrix Extended) (n m : ℕ) (s : ℚ) :
    (signedSide q n m s).HasEntries n m (fun i j => s * q.coef i j) fun i => s * q.coef i m :=
  ⟨rfl, rfl⟩

/-- Only the parameters in `A` have nonzero entries in the form. -/
def Bilinear.OnlyUses (q : SparseMatrix Extended) (n : ℕ) (A : ℕ → Prop) : Prop :=
  ∀ i < n, ¬ A i → ∀ j, q.coef i j = 0

theorem Bilinear.OnlyUses.slope_eq_zero {q : SparseMatrix Extended} {n : ℕ} {A : ℕ → Prop}
    (h : OnlyUses q n A) {i : ℕ} (hi : i < n) (hA : ¬ A i) (m : ℕ) (sign : ℚ) (x : ℕ → ℚ) :
    slope q m sign x i = 0 := by
  simp [slope, h i hi hA]

/-- The worst cases that a set answers maximize linear functions of the parameters in `A` over the
values `U` that its `n` parameters can take. -/
def Geometry.Maximizes (g : Geometry Extended) (n : ℕ) (A : ℕ → Prop) (U : (ℕ → ℚ) → Prop) :
    Prop :=
  ∀ (c : ℕ → ℚ) (u : List Extended), (∀ i < n, ¬ A i → c i = 0) →
    g.worstCase (scalars n c) = .ok u →
    ∃ v, u.map Scalar.toFinite = scalars n v ∧ U v
      ∧ ∀ w, U w → ∑ i ∈ range n, w i * c i ≤ ∑ i ∈ range n, v i * c i

/-- Worst case and reformulation of a set whose `n` parameters can take the values in `U`, for
functions and forms of the parameters in `A`. -/
structure Geometry.Exact (g : Geometry Extended) (n : ℕ) (A : ℕ → Prop) (U : (ℕ → ℚ) → Prop) :
    Prop where
  maximizes : g.Maximizes n A U
  reformulate : ∀ (q : SparseMatrix Extended) (s : Extended) (ds : List (Decision Extended))
    (certain : Affine Extended) (rhs : ℚ) (supply : Supply),
    Fits q n ds.length → IsSign s → OnlyUses q n A →
    (∀ d, Decision.Owns ds d → d.serial < supply.serial) → certain.Within (Decision.Owns ds) →
    (∀ y : Point, certain.eval y.exact
      = .finite (slope q ds.length s.rat (Decision.valuesAt ds y) n)) →
    ∃ cs next, g.reformulate (signedSide q n ds.length s.rat) certain (.finite rhs) ds supply
        = .ok (cs, next)
      ∧ Encodes supply.serial next.serial cs fun y =>
        ∀ u, U u → valueAt q n ds.length s.rat u (Decision.valuesAt ds y) ≤ rhs

/-- The sides of a constraint are signed and have finite right sides. -/
theorem Bounded.sides_spec {ε : Type} {c : Bounded ε Extended} {side : Extended × Extended}
    (h : side ∈ c.sides) : IsSign side.1 ∧ Scalar.isFinite side.2 = true := by
  unfold Bounded.sides at h
  rcases List.mem_append.mp h with h | h
  · split_ifs at h with hf
    · obtain rfl := List.mem_singleton.mp h
      exact ⟨.inl rfl, hf⟩
    · simp at h
  · split_ifs at h with hf
    · obtain rfl := List.mem_singleton.mp h
      exact ⟨.inr rfl, Extended.isFinite_neg.mpr hf⟩
    · simp at h

/-- The present values of the decision variables with a trailing one, as scalars. -/
theorem Model.point_eq (model : Model Extended) {v : Valuation Extended} (hv : v.Finite) :
    model.point v
      = scalars model.decisions.length (Decision.valuesAt model.decisions v.point) ++ [1] := by
  rw [Model.point]
  congr 1
  refine List.ext_getElem (by simp) fun j hj _ => ?_
  have : j < model.decisions.length := by simpa using hj
  simp [scalars, Decision.valuesAt, Valuation.getD_eq hv, this]

theorem Decision.valuesAt_congr {ds : List (Decision Extended)} {x y : Point}
    (h : ∀ d, Decision.Owns ds d → x d = y d) :
    Decision.valuesAt ds x = Decision.valuesAt ds y := by
  funext j
  unfold Decision.valuesAt
  rw [List.map_congr_left fun d hd => h d.column (List.mem_map_of_mem hd)]

namespace CuttingPlane

variable {q : SparseMatrix Extended} {n : ℕ} {s : Extended} {g : Geometry Extended}
  {model : Model Extended} {A : ℕ → Prop} {U : (ℕ → ℚ) → Prop}

/-- The constraints a side is replaced by say that it holds for all values of the parameters. -/
theorem reformSide_spec (hg : g.Exact n A U) (hn : model.parameters.length = n)
    (hq : Fits q n model.decisions.length) (hs : IsSign s) (hA : OnlyUses q n A) (rhs : ℚ)
    (supply : Supply)
    (hold : ∀ d, Decision.Owns model.decisions d → d.serial < supply.serial) :
    ∃ cs next, reformSide g model q.toDense s (.finite rhs) supply = .ok (cs, next)
      ∧ Encodes supply.serial next.serial cs fun y => ∀ u, U u →
        valueAt q n model.decisions.length s.rat u (Decision.valuesAt model.decisions y) ≤ rhs := by
  obtain ⟨certain, hcertain, hwithin, heval⟩ := Affine.ofCoefficients_spec model.decisions
    (fun j => s.rat * q.coef n j) rfl fun j _ => hq.isSharp_coef hs (Nat.lt_succ_self n) j
  obtain ⟨cs, next, hcs, henc⟩ := hg.reformulate q s model.decisions certain rhs supply hq hs hA
    hold hwithin fun y => by rw [heval y, slope_eq_sum]
  refine ⟨cs, next, ?_, henc⟩
  rw [reformSide, hn, splitSide_spec hq.shaped hs.isFinite]
  refine bind_eq_ok.mpr ⟨_, rfl, bind_eq_ok.mpr ⟨_, hcertain, hcs⟩⟩

/-- A cut that is made has no negligible coefficients. -/
def SharpCut (plane : CuttingPlane Extended) (g : Geometry Extended) (q : SparseMatrix Extended)
    (sign rhs : Extended) (point : List Extended) : Prop :=
  ∀ u lhs, sideWorstCase g q sign point = .ok (u, lhs) →
    plane.cutTol.less (.real (lhs - rhs)) = .ok true →
    ∀ k ∈ substitute q sign (u.map Scalar.toFinite), Scalar.isSharp k = true

/-- A tolerance compared with a finite violation. -/
theorem less_real {t : Literal Extended} {τ : Extended} (ht : t.numeric? = some τ) (z : ℚ) :
    t.less (.real (.finite z)) = .ok (τ.lt (.finite z)) := by
  have hz : (Literal.real (Extended.finite z)).numeric? = some (.finite z) := rfl
  unfold Literal.less
  split
  · rename_i heq
    cases heq
  · simp [ht, hz]

/-- The value of a side at the values that its set answers. -/
theorem sideWorstCase_spec (hq : Shaped q n model.decisions.length)
    (hs : Scalar.isFinite s = true) {x : ℕ → ℚ} {u : List Extended}
    (hu : g.worstCase (scalars n (slope q model.decisions.length s.rat x)) = .ok u)
    {v : ℕ → ℚ} (hv : u.map Scalar.toFinite = scalars n v) :
    sideWorstCase g q s (scalars model.decisions.length x ++ [1])
      = .ok (u, .finite (valueAt q n model.decisions.length s.rat v x)) := by
  rw [sideWorstCase, if_neg (by simp [hq.width]), sensitivity_spec hq hs]
  refine bind_eq_ok.mpr ⟨u, hu, ?_⟩
  rw [hv, dot_scalars fun _ => isFinite_of_mem_scalars, Extended.finite_add, valueAt_eq_slope,
    sum_congr rfl fun i hi => by rw [coord_scalars v (mem_range.mp hi)]]
  rfl

/-- The worst case of a side is what the set answers for its coefficients. -/
theorem worstCase_of_sideWorstCase {point u : List Extended} {lhs : Extended}
    (h : sideWorstCase g q s point = .ok (u, lhs)) :
    g.worstCase (sensitivity q s point).1 = .ok u := by
  unfold sideWorstCase at h
  split_ifs at h
  · cases h
  · obtain ⟨-, -, h⟩ := bind_eq_ok.mp h
    obtain ⟨u', hu, h⟩ := bind_eq_ok.mp h
    exact (Prod.mk.inj (pure_eq_ok.mp h)).1 ▸ hu

theorem worstCase_eq_ok (hq : Shaped q n model.decisions.length) (hs : Scalar.isFinite s = true)
    {x : ℕ → ℚ} {u : List Extended} {lhs : Extended}
    (h : sideWorstCase g q s (scalars model.decisions.length x ++ [1]) = .ok (u, lhs)) :
    g.worstCase (scalars n (slope q model.decisions.length s.rat x)) = .ok u := by
  have hu := worstCase_of_sideWorstCase h
  rwa [sensitivity_spec hq hs] at hu

/-- The left side of a cut is the side at parameter values that were substituted. -/
theorem exists_cutSide (hq : Shaped q n model.decisions.length) (hs : Scalar.isFinite s = true)
    {v : ℕ → ℚ} (hk : ∀ k ∈ substitute q s (scalars n v), Scalar.isSharp k = true) :
    ∃ e, Affine.ofCoefficients (substitute q s (scalars n v)) model.decisions = .ok e
      ∧ e.Within (Decision.Owns model.decisions)
      ∧ ∀ y : Point, e.eval y.exact = .finite
        (valueAt q n model.decisions.length s.rat v (Decision.valuesAt model.decisions y)) := by
  rw [substitute_spec hq hs] at hk ⊢
  obtain ⟨e, he, hwithin, heval⟩ := Affine.ofCoefficients_spec model.decisions
    (weight q n s.rat v) rfl fun j hj =>
      hk _ (List.mem_map_of_mem (List.mem_range.mpr (Nat.lt_succ_of_lt hj)))
  refine ⟨e, he, hwithin, fun y => ?_⟩
  rw [heval, valueAt_eq_weight]
  simp only [mul_comm]

/-- What is answered for a side whose worst case is known: nothing, or the side at the worst values
if they violate it by more than the tolerance. -/
theorem exists_sideCut {plane : CuttingPlane Extended} {τ : Extended}
    (hτ : plane.cutTol.numeric? = some τ) (hq : Shaped q n model.decisions.length)
    (hs : Scalar.isFinite s = true) {x : ℕ → ℚ} {rhs : ℚ}
    (hsharp : plane.SharpCut g q s (.finite rhs) (scalars model.decisions.length x ++ [1]))
    {u : List Extended}
    (hu : g.worstCase (scalars n (slope q model.decisions.length s.rat x)) = .ok u)
    {v : ℕ → ℚ} (hv : u.map Scalar.toFinite = scalars n v) :
    ∃ r, plane.sideCut g model q s (.finite rhs) (scalars model.decisions.length x ++ [1]) = .ok r
      ∧ (τ.lt (.finite (valueAt q n model.decisions.length s.rat v x - rhs)) = false ∧ r = none
        ∨ τ.lt (.finite (valueAt q n model.decisions.length s.rat v x - rhs)) = true
          ∧ ∃ e, r = some (.atMost e (.constant (.finite rhs)))
            ∧ e.Within (Decision.Owns model.decisions)
            ∧ ∀ y : Point, e.eval y.exact = .finite (valueAt q n model.decisions.length s.rat v
              (Decision.valuesAt model.decisions y))) := by
  have hworst := sideWorstCase_spec hq hs hu hv
  have hless := less_real hτ (valueAt q n model.decisions.length s.rat v x - rhs)
  rw [← Extended.finite_sub] at hless
  cases hlt : τ.lt (.finite (valueAt q n model.decisions.length s.rat v x - rhs)) with
  | false =>
    rw [Extended.finite_sub, hlt] at hless
    refine ⟨none, bind_eq_ok.mpr ⟨_, hworst, bind_eq_ok.mpr ⟨false, ?_, rfl⟩⟩, .inl ⟨rfl, rfl⟩⟩
    rw [Extended.finite_sub, hless]
  | true =>
    rw [Extended.finite_sub, hlt] at hless
    have hk := hsharp u _ hworst (by rw [Extended.finite_sub, hless])
    rw [hv] at hk
    obtain ⟨e, he, hwithin, heval⟩ := exists_cutSide hq hs hk
    refine ⟨_, bind_eq_ok.mpr ⟨_, hworst, bind_eq_ok.mpr ⟨true, ?_, ?_⟩⟩,
      .inr ⟨rfl, e, rfl, hwithin, heval⟩⟩
    · rw [Extended.finite_sub, hless]
    · rw [if_pos rfl, hv]
      exact bind_eq_ok.mpr ⟨e, he, rfl⟩

/-- A side is cut off exactly where the values its set answers violate it by more than the
tolerance, and the cut is the side at these values. -/
theorem sideCut_spec {plane : CuttingPlane Extended} {τ : Extended}
    (hτ : plane.cutTol.numeric? = some τ) (hq : Shaped q n model.decisions.length)
    (hs : Scalar.isFinite s = true) {x : ℕ → ℚ} {rhs : ℚ}
    (hsharp : plane.SharpCut g q s (.finite rhs) (scalars model.decisions.length x ++ [1]))
    {r : Option (LinearConstraint Extended)}
    (h : plane.sideCut g model q s (.finite rhs) (scalars model.decisions.length x ++ [1])
      = .ok r) :
    ∃ u, g.worstCase (scalars n (slope q model.decisions.length s.rat x)) = .ok u
      ∧ ∀ v, u.map Scalar.toFinite = scalars n v →
        (τ.lt (.finite (valueAt q n model.decisions.length s.rat v x - rhs)) = false ∧ r = none)
        ∨ (τ.lt (.finite (valueAt q n model.decisions.length s.rat v x - rhs)) = true
          ∧ ∃ c, r = some c ∧ c.Within (Decision.Owns model.decisions)
            ∧ ∀ y : Point, c.Holds y.exact ↔ valueAt q n model.decisions.length s.rat v
              (Decision.valuesAt model.decisions y) ≤ rhs) := by
  obtain ⟨⟨u, lhs⟩, hworst, -⟩ := bind_eq_ok.mp h
  have hu := worstCase_eq_ok hq hs hworst
  refine ⟨u, hu, fun v hv => ?_⟩
  obtain ⟨r', hr', hcases⟩ := exists_sideCut hτ hq hs hsharp hu hv
  obtain rfl := Except.ok.inj (hr'.symm.trans h)
  refine hcases.imp_right ?_
  rintro ⟨hlt, e, rfl, hwithin, heval⟩
  refine ⟨hlt, _, rfl, by simpa [LinearConstraint.Within, LinearConstraint.atMost], fun y => ?_⟩
  simp [LinearConstraint.Holds, LinearConstraint.atMost, Relation.holds, Affine.eval, heval]

end CuttingPlane

end RobustOpt
