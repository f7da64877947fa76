import RobustOpt.Proofs.Polyhedral.Reformulation

/-!
# The multipliers of a polyhedral set

The constraints that a polyhedral set writes for a side can be satisfied at given decision values,
by nonnegative multipliers of the inequalities and arbitrary ones of the equations, exactly where
the side holds for all points of the polyhedron. The polyhedron may be unbounded, and may lack
inequalities, equations or both.

## Main definitions

* `Polyhedral.IsMultiplier`: the columns of the multipliers.

## Main statements

* `Polyhedral.exists_multipliers_iff`: multipliers exist exactly where the side holds everywhere.
-/

namespace RobustOpt

open Finset Bilinear

namespace Polyhedral

variable {n : ℕ} {p : Polyhedron Extended} {side : Side Extended} {certain : Affine Extended}
  {ds : List (Decision Extended)} {supply : Supply} {w : ℕ → ℕ → ℚ} {o : ℕ → ℚ}

/-- The columns of the multipliers, nonnegative ones for the inequalities. -/
def IsMultiplier (p : Polyhedron Extended) (supply : Supply) (d : Column) : Prop :=
  (∃ k < p.b.length, d = supply.column true (some k))
    ∨ ∃ k < p.f.length, d = (supply.after p.b).column false (some k)

/-- Without inequalities and equations there are no multipliers, and the dual equations say that
the side depends on no parameter. -/
theorem holds_dualEquations_of_nil {e : ℕ → Affine Extended} {c : ℕ → ℚ} (below equal : ℕ → Column)
    (hp : p.Regular n) (hr : p.Rational) (hb : p.b = []) (hf : p.f = []) {x : Point}
    (he : ∀ i < n, (e i).eval x.exact = .finite (c i)) :
    (LinearConstraint.entrywise .equal ((List.range n).map e)
        ((List.range n).map (dualEntry p below equal))).Holds x.exact ↔ ∀ i < n, c i = 0 := by
  rw [holds_dualEquations below equal hp hr he]
  simp [hb, hf]

/-- The dual constraints represent the side in terms of its coefficients and its part without
parameters. -/
theorem represents_side (hp : p.Regular n) (hr : p.Rational) (hne : ∃ u, p.Contains n u)
    {e : ℕ → Affine Extended}
    (he : ∀ i < n, ∀ y : Point, (e i).eval y.exact
      = .finite (affineAt w o ds.length (Decision.valuesAt ds y) i))
    (hfin : certain.form.Finite) (hcertain : certain.Within (Decision.Owns ds))
    (hold : ∀ d, Decision.Owns ds d → d.serial < supply.serial) (rhs : ℚ) :
    Represents supply.serial (fun d => ∃ k < p.b.length, d = supply.column true (some k))
      (dualConstraints p n e certain rhs (fun k => supply.column true (some k))
        fun k => (supply.after p.b).column false (some k))
      fun x => ∀ u, p.Contains n u →
        ∑ i ∈ range n, affineAt w o ds.length (Decision.valuesAt ds x) i * u i
          + certain.form.valueAt x ≤ rhs := by
  -- the coefficients of the side, followed by the part without parameters
  let c : Point → ℕ → ℚ := fun y i =>
    if i < n then affineAt w o ds.length (Decision.valuesAt ds y) i else certain.form.valueAt y
  have hslope : ∀ i < n, ∀ y, c y i = affineAt w o ds.length (Decision.valuesAt ds y) i :=
    fun i hi y => if_pos hi
  have hconst : ∀ y, c y n = certain.form.valueAt y := fun y => if_neg (lt_irrefl n)
  have heval : ∀ y z : Point, (∀ d, Decision.Owns ds d → z d = y d) →
      certain.eval z.exact = .finite (certain.form.valueAt y) := fun y z hzy =>
    Affine.eval_of_agree hfin hcertain hzy
  have hagree : ∀ y z : Point, (∀ d : Column, d.serial < supply.serial → y d = z d) →
      c y = c z := by
    intro y z hyz
    have hyz : ∀ d, Decision.Owns ds d → y d = z d := fun d hd => hyz d (hold d hd)
    have hvalue : certain.form.valueAt y = certain.form.valueAt z :=
      Extended.finite.inj ((heval y y fun _ _ => rfl).symm.trans (heval z y hyz))
    simp only [c, hvalue, Decision.valuesAt_congr hyz]
  have hsum : ∀ (x : Point) (u : ℕ → ℚ), ∑ i ∈ range n, u i * c x i + c x n
      = ∑ i ∈ range n, affineAt w o ds.length (Decision.valuesAt ds x) i * u i
        + certain.form.valueAt x := by
    intro x u
    rw [hconst]
    congr 1
    exact sum_congr rfl fun i hi => by rw [hslope i (mem_range.mp hi), mul_comm]
  simpa only [hsum] using represents_dualConstraints hp hr hne
    (fun i hi y => by rw [hslope i hi, he i hi])
    (fun y => by rw [hconst, heval y y fun _ _ => rfl]) hagree rhs

/-- Whatever the decision values are, the two constraints of a side can be satisfied by nonnegative
multipliers of the inequalities and multipliers of the equations, if and only if the side holds for
all points of the polyhedron. Without rows no multiplier is created. -/
theorem exists_multipliers_iff (hp : p.Regular n) (hr : p.Rational) (hne : ∃ u, p.Contains n u)
    (hside : side.IsAffine n ds.length w o) (hfin : certain.form.Finite)
    (hcertain : certain.Within (Decision.Owns ds))
    (hold : ∀ d, Decision.Owns ds d → d.serial < supply.serial) (rhs : ℚ) :
    ∃ equations bound next,
      reformulate p side certain (.finite rhs) ds supply = .ok ([equations, bound], next)
      ∧ (∀ c ∈ [equations, bound], c.Within fun d => Decision.Owns ds d ∨ IsMultiplier p supply d)
      ∧ (p.b = [] → p.f = [] → next = supply ∧ ∀ x : Point, equations.Holds x.exact
        ↔ ∀ i < n, affineAt w o ds.length (Decision.valuesAt ds x) i = 0)
      ∧ ∀ x : Point,
        (∃ y : Point, (∀ d : Column, d.serial < supply.serial → y d = x d)
          ∧ (∀ k < p.b.length, 0 ≤ y (supply.column true (some k)))
          ∧ equations.Holds y.exact ∧ bound.Holds y.exact)
        ↔ ∀ u, p.Contains n u →
          ∑ i ∈ range n, affineAt w o ds.length (Decision.valuesAt ds x) i * u i
            + certain.form.valueAt x ≤ rhs := by
  obtain ⟨e, hreform, he⟩ := exists_reformulate p certain supply hside rhs
  refine ⟨_, _, _, hreform, ?_, fun hb hf => ⟨?_, fun x => ?_⟩, fun x => ?_⟩
  · exact within_dualConstraints (fun i hi => (he i hi).1.mono fun _ => .inl)
      (hcertain.mono fun _ => .inl) (fun k hk => .inr (.inl ⟨k, hk, rfl⟩))
      (fun k hk => .inr (.inr ⟨k, hk, rfl⟩)) rhs
  · simp [Supply.after, hb, hf]
  · exact holds_dualEquations_of_nil _ _ hp hr hb hf fun i hi => (he i hi).2 x
  · have hiff := (represents_side hp hr hne (fun i hi => (he i hi).2) hfin hcertain hold
      rhs).exists_iff x
    have hsigned : ∀ y : Point,
        (∀ d, (∃ k < p.b.length, d = supply.column true (some k)) → 0 ≤ y d)
          ↔ ∀ k < p.b.length, 0 ≤ y (supply.column true (some k)) := by
      intro y
      refine ⟨fun h k hk => h _ ⟨k, hk, rfl⟩, ?_⟩
      rintro h d ⟨k, hk, rfl⟩
      exact h k hk
    have hpair : ∀ (b c : LinearConstraint Extended) (P : LinearConstraint Extended → Prop),
        (∀ d ∈ [b, c], P d) ↔ P b ∧ P c := by simp
    simpa only [dualConstraints, hsigned, hpair] using hiff

end Polyhedral

namespace Blend

/-- The number of batches. -/
def batches : Decision Extended :=
  ⟨0, 0, "x", .negInf, .posInf, ⟨0, none, .decision 0, false, false⟩⟩

/-- Two shares that add up to six, of which the first is at most five. -/
def shares : Polyhedron Extended :=
  ⟨[[.finite 1, .finite 0]], [.finite 5], [[.finite 1, .finite 1]], [.finite 6]⟩

/-- Every batch costs the first share and twice the second one, which is refunded once. -/
def cost : Side Extended := ⟨[[.finite 1], [.finite 2]], [.finite 0, .finite (-1)], []⟩

/-- Every batch costs three, besides. -/
def fee : Affine Extended := .scale (.finite 3) (.column "x" batches.column)

theorem regular_shares : shares.Regular 2 := ⟨rfl, rfl, by simp [shares]⟩

theorem rational_shares : shares.Rational :=
  ⟨by simp [shares, Extended.isFinite_finite], by simp [shares, Extended.isFinite_finite]⟩

theorem contains_shares {u : ℕ → ℚ} : shares.Contains 2 u ↔ u 0 ≤ 5 ∧ u 0 + u 1 = 6 := by
  rw [Polyhedron.contains_iff regular_shares rational_shares]
  simp [shares, Polyhedron.entryAt, Extended.coord, sum_range_succ]

/-- The cost as a function of the number of batches. -/
theorem isAffine_cost : cost.IsAffine 2 1 (fun i _ => i + 1) fun i => -i where
  linear := by norm_num [cost, scalars, List.range_succ]
  offset := by simp [cost, scalars, List.range_succ]
  sharp i hi j _ := by interval_cases i <;> decide +kernel

theorem finite_fee : fee.form.Finite := ⟨rfl, by
  simp only [fee, Affine.form, LinearForm.scale, List.map_cons, List.map_nil,
    List.forall_mem_singleton]
  decide +kernel⟩

/-- The cost and the fee in numbers. -/
theorem cost_eq (x : Point) (u : ℕ → ℚ) :
    ∑ i ∈ range 2, affineAt (fun i _ => i + 1) (fun i => -i) [batches].length
        (Decision.valuesAt [batches] x) i * u i + fee.form.valueAt x
      = x batches.column * u 0 + (2 * x batches.column - 1) * u 1 + 3 * x batches.column := by
  have hone : (1 : Extended) = .finite 1 := rfl
  have hfee : fee.form.valueAt x = 3 * x batches.column := by
    simp [fee, Affine.form, LinearForm.valueAt, LinearForm.scale, hone, Extended.zero_eq]
  simp only [sum_range_succ, sum_range_zero, affineAt, Decision.valuesAt, hfee, List.map_cons,
    List.map_nil, List.getD_cons_zero, List.length_singleton]
  push_cast
  ring

/-- One batch costs nine whatever the shares are, and two batches have no highest cost. -/
theorem shares_exists_multipliers : ∃ equations bound next,
    Polyhedral.reformulate shares cost fee (.finite 10) [batches] ⟨1, 0⟩
      = .ok ([equations, bound], next)
    ∧ (∃ y : Point, y batches.column = 1 ∧ 0 ≤ y ((⟨1, 0⟩ : Supply).column true (some 0))
      ∧ equations.Holds y.exact ∧ bound.Holds y.exact)
    ∧ ∀ y : Point, y batches.column = 2 → 0 ≤ y ((⟨1, 0⟩ : Supply).column true (some 0)) →
      ¬ (equations.Holds y.exact ∧ bound.Holds y.exact) := by
  have hfee : fee.Within (Decision.Owns [batches]) := by simp [fee, Decision.Owns]
  have hold : ∀ d, Decision.Owns [batches] d → d.serial < (⟨1, 0⟩ : Supply).serial := by
    simp [Decision.Owns, batches]
  obtain ⟨equations, bound, next, hok, -, -, hiff⟩ := Polyhedral.exists_multipliers_iff
    regular_shares rational_shares ⟨fun i => 6 * i, contains_shares.mpr (by norm_num)⟩
    isAffine_cost finite_fee hfee hold 10
  refine ⟨equations, bound, next, hok, ?_, ?_⟩
  · obtain ⟨y, hy, hl, hholds⟩ := (hiff fun _ => 1).mpr fun u hu => by
      obtain ⟨-, hsum⟩ := contains_shares.mp hu
      rw [cost_eq]
      linarith
    exact ⟨y, hy _ (by simp [batches]), hl 0 (by simp [shares]), hholds⟩
  · intro y hy hl hholds
    have hle := (hiff y).mp ⟨y, fun _ _ => rfl, fun k hk => ?_, hholds⟩
      (fun i => if i = 0 then -1 else 7) (contains_shares.mpr (by norm_num))
    · rw [cost_eq, hy] at hle
      norm_num at hle
    · obtain rfl : k = 0 := by simpa [shares] using hk
      exact hl

end Blend

end RobustOpt
