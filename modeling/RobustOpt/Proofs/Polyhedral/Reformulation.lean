import RobustOpt.Proofs.Polyhedral.WorstCase

/-!
# The reformulation of a polyhedral set

By duality a side holds for all points of a polyhedron if and only if there are multipliers of its
rows that combine to the coefficients of the side and to no more than its right side. Auxiliary
variables for the multipliers make this a system of linear constraints, which encodes the side.

## Main definitions

* `Polyhedral.dualConstraints`: the constraints on the multipliers.
* `Polyhedral.IsDual`: what they say.

## Main statements

* `Polyhedral.exists_isDual`, `Polyhedral.IsDual.sum_le`: a side holds everywhere if and only if
  there are multipliers.
* `Polyhedral.represents_dualConstraints`, `Polyhedral.reformulate_spec`: the constraints that the
  program writes represent a side, and encode it.
-/

namespace RobustOpt

open Finset Bilinear

namespace Polyhedral

variable {n : ℕ} {p : Polyhedron Extended} {q : SparseMatrix Extended}

/-! ## Multipliers -/

/-- Multipliers of the rows that combine to the coefficients `c i` of a function with the constant
part `c n`, and to no more than a right side. -/
def IsDual (p : Polyhedron Extended) (n : ℕ) (c : ℕ → ℚ) (rhs : ℚ) (l m : ℕ → ℚ) : Prop :=
  (∀ i < n, c i = ∑ k ∈ range p.b.length, Polyhedron.entryAt p.a k i * l k
      + ∑ k ∈ range p.f.length, Polyhedron.entryAt p.e k i * m k)
    ∧ c n + ∑ k ∈ range p.b.length, Extended.coord p.b k * l k
      + ∑ k ∈ range p.f.length, Extended.coord p.f k * m k ≤ rhs

/-- Multipliers of which those of the inequalities are nonnegative prove that a side holds. -/
theorem IsDual.sum_le {c l m : ℕ → ℚ} {rhs : ℚ} (h : IsDual p n c rhs l m) (hp : p.Regular n)
    (hr : p.Rational) (hl : ∀ k < p.b.length, 0 ≤ l k) {u : ℕ → ℚ} (hu : p.Contains n u) :
    ∑ i ∈ range n, u i * c i + c n ≤ rhs := by
  have hle := Polyhedron.sum_le_of_dual hp hr hu hl h.1
  linarith [h.2]

/-- A side that holds for all points of a polyhedron has multipliers, those of the inequalities
being nonnegative. -/
theorem exists_isDual (hp : p.Regular n) (hr : p.Rational) {w : ℕ → ℚ} (hw : p.Contains n w)
    {c : ℕ → ℚ} {rhs : ℚ} (h : ∀ u, p.Contains n u → ∑ i ∈ range n, u i * c i + c n ≤ rhs) :
    ∃ l m : ℕ → ℚ, (∀ k, 0 ≤ l k) ∧ IsDual p n c rhs l m := by
  obtain ⟨l, m, hl, hc, hbound⟩ := Polyhedron.exists_dual hp hr hw c (rhs - c n) fun u hu => by
    have := h u hu
    simp only [mul_comm (u _)] at this
    linarith
  exact ⟨l, m, hl, hc, by linarith⟩

/-- Whether multipliers are dual only depends on those of existing rows. -/
theorem isDual_congr {c : ℕ → ℚ} {rhs : ℚ} {l l' m m' : ℕ → ℚ}
    (hl : ∀ k < p.b.length, l k = l' k) (hm : ∀ k < p.f.length, m k = m' k) :
    IsDual p n c rhs l m ↔ IsDual p n c rhs l' m' := by
  have hsum : ∀ {K : ℕ} {v v' : ℕ → ℚ} (f : ℕ → ℚ), (∀ k < K, v k = v' k) →
      ∑ k ∈ range K, f k * v k = ∑ k ∈ range K, f k * v' k := fun f h =>
    sum_congr rfl fun k hk => by rw [h k (mem_range.mp hk)]
  simp only [IsDual, hsum _ hl, hsum _ hm]

/-! ## The dual constraints -/

/-- The coefficients of a parameter in the rows. -/
theorem coord_map_getD (rows : List (List Extended)) (k i : ℕ) :
    Extended.coord (rows.map fun row => row.getD i 0) k = Polyhedron.entryAt rows k i := by
  rcases lt_or_ge k rows.length with hk | hk
  · simp [Extended.coord, Polyhedron.entryAt, List.getD_eq_getElem?_getD, hk]
  · simp [Extended.coord, Polyhedron.entryAt, List.getD_eq_getElem?_getD, hk]

theorem isFinite_map_getD {rows : List (List Extended)}
    (h : ∀ row ∈ rows, ∀ x ∈ row, Scalar.isFinite x = true) (i : ℕ) :
    ∀ x ∈ rows.map fun row => row.getD i 0, Scalar.isFinite x = true := by
  simp only [List.forall_mem_map]
  intro row hrow
  rw [← Extended.finite_coord (h row hrow)]
  rfl

/-- The right side of the dual equation of a parameter. -/
def dualEntry (p : Polyhedron Extended) (below equal : ℕ → Column) (i : ℕ) : Affine Extended :=
  ((Affine.constant 0).addColumns ((p.a.map fun row => row.getD i 0).zip
    ((List.range p.b.length).map below))).addColumns
    ((p.e.map fun row => row.getD i 0).zip ((List.range p.f.length).map equal))

/-- The bound on the worst case of a side in terms of the multipliers. -/
def dualBound (p : Polyhedron Extended) (certain : Affine Extended) (below equal : ℕ → Column) :
    Affine Extended :=
  (certain.addColumns (p.b.zip ((List.range p.b.length).map below))).addColumns
    (p.f.zip ((List.range p.f.length).map equal))

theorem eval_dualEntry (hp : p.Regular n) (hr : p.Rational)
    (below equal : ℕ → Column) (i : ℕ) (y : Point) :
    (dualEntry p below equal i).eval y.exact
      = .finite (∑ k ∈ range p.b.length, Polyhedron.entryAt p.a k i * y (below k)
        + ∑ k ∈ range p.f.length, Polyhedron.entryAt p.e k i * y (equal k)) := by
  have hzero : (Affine.constant (0 : Extended)).eval y.exact = .finite 0 := rfl
  have hlen : (p.a.map fun row => row.getD i 0).length = p.b.length := by simp [hp.inequalities]
  have hlen' : (p.e.map fun row => row.getD i 0).length = p.f.length := by simp [hp.equations]
  have ha := Affine.eval_addColumns_zip (isFinite_map_getD (fun row hrow =>
    hr.rows row (List.mem_append_left _ hrow)) i) hlen below hzero
  rw [dualEntry, Affine.eval_addColumns_zip (isFinite_map_getD (fun row hrow =>
    hr.rows row (List.mem_append_right _ hrow)) i) hlen' equal ha, zero_add]
  simp only [coord_map_getD]

theorem eval_dualBound (hr : p.Rational) {certain : Affine Extended}
    (below equal : ℕ → Column) {y : Point} {z : ℚ} (hc : certain.eval y.exact = .finite z) :
    (dualBound p certain below equal).eval y.exact
      = .finite (z + ∑ k ∈ range p.b.length, Extended.coord p.b k * y (below k)
        + ∑ k ∈ range p.f.length, Extended.coord p.f k * y (equal k)) := by
  have hb := Affine.eval_addColumns_zip (fun x hx => hr.sides x (List.mem_append_left _ hx)) rfl
    below hc
  exact Affine.eval_addColumns_zip (fun x hx => hr.sides x (List.mem_append_right _ hx)) rfl
    equal hb

theorem within_dualEntry {P : Column → Prop} {below equal : ℕ → Column}
    (hb : ∀ k < p.b.length, P (below k)) (he : ∀ k < p.f.length, P (equal k)) (i : ℕ) :
    (dualEntry p below equal i).Within P := by
  refine Affine.within_addColumns (Affine.within_addColumns (Affine.within_constant 0) ?_) ?_
  · intro t ht
    obtain ⟨k, hk, h⟩ := List.mem_map.mp (List.of_mem_zip ht).2
    exact h ▸ hb k (List.mem_range.mp hk)
  · intro t ht
    obtain ⟨k, hk, h⟩ := List.mem_map.mp (List.of_mem_zip ht).2
    exact h ▸ he k (List.mem_range.mp hk)

theorem within_dualBound {P : Column → Prop} {certain : Affine Extended}
    {below equal : ℕ → Column} (hc : certain.Within P) (hb : ∀ k < p.b.length, P (below k))
    (he : ∀ k < p.f.length, P (equal k)) : (dualBound p certain below equal).Within P := by
  refine Affine.within_addColumns (Affine.within_addColumns hc ?_) ?_
  · intro t ht
    obtain ⟨k, hk, h⟩ := List.mem_map.mp (List.of_mem_zip ht).2
    exact h ▸ hb k (List.mem_range.mp hk)
  · intro t ht
    obtain ⟨k, hk, h⟩ := List.mem_map.mp (List.of_mem_zip ht).2
    exact h ▸ he k (List.mem_range.mp hk)

/-- The constraints on the multipliers of a side with coefficients `e`. -/
def dualConstraints (p : Polyhedron Extended) (n : ℕ) (e : ℕ → Affine Extended)
    (certain : Affine Extended) (rhs : ℚ) (below equal : ℕ → Column) :
    List (LinearConstraint Extended) :=
  [.entrywise .equal ((List.range n).map e) ((List.range n).map (dualEntry p below equal)),
    .atMost (dualBound p certain below equal) (.constant (.finite rhs))]

section DualConstraints

variable {e : ℕ → Affine Extended} {certain : Affine Extended}

/-- What the dual equations say about the multipliers. -/
theorem holds_dualEquations (below equal : ℕ → Column) (hp : p.Regular n) (hr : p.Rational)
    {y : Point} {c : ℕ → ℚ} (he : ∀ i < n, (e i).eval y.exact = .finite (c i)) :
    (LinearConstraint.entrywise .equal ((List.range n).map e)
        ((List.range n).map (dualEntry p below equal))).Holds y.exact
      ↔ ∀ i < n, c i = ∑ k ∈ range p.b.length, Polyhedron.entryAt p.a k i * y (below k)
        + ∑ k ∈ range p.f.length, Polyhedron.entryAt p.e k i * y (equal k) := by
  simp only [LinearConstraint.Holds, LinearConstraint.entrywise, List.zip_map',
    List.forall_mem_map, Relation.holds, List.mem_range]
  refine forall₂_congr fun i hi => ?_
  rw [he i hi, eval_dualEntry hp hr, Extended.eq_finite, decide_eq_true_eq]

/-- What the dual constraints say about the multipliers. -/
theorem holds_dualConstraints (below equal : ℕ → Column) (hp : p.Regular n) (hr : p.Rational)
    {y : Point} {c : ℕ → ℚ}
    (he : ∀ i < n, (e i).eval y.exact = .finite (c i))
    (hc : certain.eval y.exact = .finite (c n)) (rhs : ℚ) :
    (∀ d ∈ dualConstraints p n e certain rhs below equal, d.Holds y.exact)
      ↔ IsDual p n c rhs (fun k => y (below k)) fun k => y (equal k) := by
  simp only [dualConstraints, List.forall_mem_cons, List.not_mem_nil, false_imp_iff, implies_true,
    and_true, holds_dualEquations below equal hp hr he]
  refine and_congr_right fun _ => ?_
  simp only [LinearConstraint.Holds, LinearConstraint.atMost, List.forall_mem_singleton,
    Relation.holds]
  rw [eval_dualBound hr below equal hc, Affine.eval, Extended.le_finite, decide_eq_true_eq]

theorem within_dualConstraints {P : Column → Prop} {below equal : ℕ → Column}
    (he : ∀ i < n, (e i).Within P) (hc : certain.Within P) (hb : ∀ k < p.b.length, P (below k))
    (hf : ∀ k < p.f.length, P (equal k)) (rhs : ℚ) :
    ∀ d ∈ dualConstraints p n e certain rhs below equal, d.Within P := by
  simp only [dualConstraints, List.forall_mem_cons, List.not_mem_nil, false_imp_iff, implies_true,
    and_true, LinearConstraint.Within, LinearConstraint.entrywise, LinearConstraint.atMost,
    List.zip_map', List.forall_mem_map, List.mem_range]
  exact ⟨fun i hi => ⟨he i hi, within_dualEntry hb hf i⟩, within_dualBound hc hb hf,
    Affine.within_constant _⟩

end DualConstraints

section Reformulate

variable {s : Extended} {ds : List (Decision Extended)} {certain : Affine Extended}
  {supply : Supply}

/-- If a side holds for all points, the columns of the multipliers, which come after those of the
side, can be given values that satisfy the dual constraints. -/
theorem exists_multipliers (hp : p.Regular n) (hr : p.Rational) {w : ℕ → ℚ} (hw : p.Contains n w)
    {e : ℕ → Affine Extended} {x : Point} {c : ℕ → ℚ} {rhs : ℚ}
    (he : ∀ i < n, ∀ y : Point, (∀ d : Column, d.serial < supply.serial → y d = x d) →
      (e i).eval y.exact = .finite (c i))
    (hc : ∀ y : Point, (∀ d : Column, d.serial < supply.serial → y d = x d) →
      certain.eval y.exact = .finite (c n))
    (h : ∀ u, p.Contains n u → ∑ i ∈ range n, u i * c i + c n ≤ rhs) :
    ∃ y : Point, (∀ d : Column, d.serial < supply.serial → y d = x d)
      ∧ (∀ d : Column, supply.serial ≤ d.serial → d.Admits (y d))
      ∧ ∀ d ∈ dualConstraints p n e certain rhs (fun k => supply.column true (some k))
        (fun k => (supply.after p.b).column false (some k)), d.Holds y.exact := by
  obtain ⟨l, m, hl, hdual⟩ := exists_isDual hp hr hw h
  let y := (x.assign supply true fun k => l (k.getD 0)).assign (supply.after p.b) false
    fun k => m (k.getD 0)
  have hyx : ∀ d : Column, d.serial < supply.serial → y d = x d := fun d hd =>
    (Point.assign_of_lt (hd.trans_le (supply.serial_le_after p.b))).trans (Point.assign_of_lt hd)
  refine ⟨y, hyx, fun d hd => ?_, ?_⟩
  · rcases lt_or_ge d.serial (supply.after p.b).serial with hlt | hge
    · simp only [y, Point.assign_of_lt hlt]
      exact Point.admits_assign (fun _ k => hl _) hd
    · exact Point.admits_assign (by simp) hge
  · rw [holds_dualConstraints _ _ hp hr (fun i hi => he i hi y hyx) (hc y hyx) rhs]
    refine (isDual_congr (fun k hk => ?_) fun k _ => ?_).mpr hdual
    · exact (Point.assign_of_lt (supply.serial_column_lt true hk)).trans
        (Point.assign_column (some k))
    · exact Point.assign_column (some k)

/-- The dual constraints represent that a side holds for all points of the polyhedron, by
nonnegative multipliers of the inequalities. -/
theorem represents_dualConstraints (hp : p.Regular n) (hr : p.Rational)
    (hne : ∃ u, p.Contains n u) {e : ℕ → Affine Extended} {c : Point → ℕ → ℚ}
    (he : ∀ i < n, ∀ y : Point, (e i).eval y.exact = .finite (c y i))
    (hc : ∀ y : Point, certain.eval y.exact = .finite (c y n))
    (hagree : ∀ x y : Point, (∀ d : Column, d.serial < supply.serial → x d = y d) → c x = c y)
    (rhs : ℚ) :
    Represents supply.serial (fun d => ∃ k < p.b.length, d = supply.column true (some k))
      (dualConstraints p n e certain rhs (fun k => supply.column true (some k))
        fun k => (supply.after p.b).column false (some k))
      fun y => ∀ u, p.Contains n u → ∑ i ∈ range n, u i * c y i + c y n ≤ rhs where
  signed := by
    rintro d ⟨k, -, rfl⟩
    exact ⟨le_rfl, fun q hq => hq.1 rfl⟩
  congr x y hxy := by rw [hagree x y hxy]
  sound y hsigned hy u hu := by
    have hdual := (holds_dualConstraints _ _ hp hr (fun i hi => he i hi y) (hc y) rhs).mp hy
    exact hdual.sum_le hp hr (fun k hk => hsigned _ ⟨k, hk, rfl⟩) hu
  complete x hx := by
    obtain ⟨w, hw⟩ := hne
    exact exists_multipliers hp hr hw (fun i hi y hyx => by rw [he i hi, hagree y x hyx])
      (fun y hyx => by rw [hc, hagree y x hyx]) hx

/-- The program writes the dual constraints of a side, whatever the size of its coefficients. -/
theorem exists_reformulate_written (p : Polyhedron Extended) (certain : Affine Extended)
    (supply : Supply) {side : Side Extended} {w : ℕ → ℕ → ℚ} {o : ℕ → ℚ}
    (hside : side.HasEntries n ds.length w o) (rhs : ℚ) :
    ∃ e : ℕ → Affine Extended, reformulate p side certain (.finite rhs) ds supply
        = .ok (dualConstraints p n e certain rhs (fun k => supply.column true (some k))
          (fun k => (supply.after p.b).column false (some k)), (supply.after p.b).after p.f)
      ∧ ∀ i < n, (e i).Within (Decision.Owns ds)
        ∧ ∀ y : Point, (e i).eval y.exact
          = .finite (writtenAt w o n ds.length (Decision.valuesAt ds y) i) := by
  obtain ⟨e, he, hspec⟩ := Affine.ofMap_kept ds (List.range n) w o rfl
  refine ⟨e, bind_eq_ok.mpr ⟨(List.range n).map e, ?_, ?_⟩, fun i hi =>
    hspec i (List.mem_range.mpr hi)⟩
  · rw [hside.linear, hside.offset]
    exact he
  · simp only [Supply.fresh_unless_empty, List.length_map, List.length_range]
    rfl

/-- The program writes the dual constraints of a side. -/
theorem exists_reformulate (p : Polyhedron Extended) (certain : Affine Extended) (supply : Supply)
    {side : Side Extended} {w : ℕ → ℕ → ℚ} {o : ℕ → ℚ} (hside : side.IsAffine n ds.length w o)
    (rhs : ℚ) :
    ∃ e : ℕ → Affine Extended, reformulate p side certain (.finite rhs) ds supply
        = .ok (dualConstraints p n e certain rhs (fun k => supply.column true (some k))
          (fun k => (supply.after p.b).column false (some k)), (supply.after p.b).after p.f)
      ∧ ∀ i < n, (e i).Within (Decision.Owns ds)
        ∧ ∀ y : Point, (e i).eval y.exact
          = .finite (affineAt w o ds.length (Decision.valuesAt ds y) i) := by
  obtain ⟨e, he, hspec⟩ := exists_reformulate_written p certain supply hside.hasEntries rhs
  refine ⟨e, he, fun i hi => ⟨(hspec i hi).1, fun y => ?_⟩⟩
  rw [(hspec i hi).2 y, hside.writtenAt_eq _ hi]

/-- The constraints of a polyhedral set encode that a side holds for all points of its
polyhedron. -/
theorem reformulate_spec (hp : p.Regular n) (hr : p.Rational) {w : ℕ → ℚ} (hw : p.Contains n w)
    (rhs : ℚ) (hq : Fits q n ds.length) (hs : IsSign s)
    (hold : ∀ d, Decision.Owns ds d → d.serial < supply.serial)
    (hwithin : certain.Within (Decision.Owns ds))
    (heval : ∀ y : Point, certain.eval y.exact
      = .finite (slope q ds.length s.rat (Decision.valuesAt ds y) n)) :
    ∃ cs next, reformulate p (signedSide q n ds.length s.rat) certain (.finite rhs) ds supply
        = .ok (cs, next)
      ∧ Encodes supply.serial next.serial cs fun y => ∀ u, p.Contains n u →
        valueAt q n ds.length s.rat u (Decision.valuesAt ds y) ≤ rhs := by
  obtain ⟨e, hreform, he⟩ := exists_reformulate p certain supply (isAffine_signedSide hq hs) rhs
  have heslope : ∀ i < n, ∀ y : Point, (e i).eval y.exact
      = .finite (slope q ds.length s.rat (Decision.valuesAt ds y) i) := by
    intro i hi y
    rw [(he i hi).2 y, slope_eq_affineAt]
  have hrepresents := represents_dualConstraints hp hr ⟨w, hw⟩ heslope heval
    (fun x y hxy => by rw [Decision.valuesAt_congr fun d hd => hxy d (hold d hd)]) rhs
  have hmid := supply.serial_le_after p.b
  have hstop := (supply.after p.b).serial_le_after p.f
  have hdecision : ∀ d, Decision.Owns ds d → d.serial < ((supply.after p.b).after p.f).serial :=
    fun d hd => (hold d hd).trans_le (hmid.trans hstop)
  simp only [valueAt_eq_slope]
  exact ⟨_, _, hreform, Encodes.of_represents hrepresents (hmid.trans hstop)
    (within_dualConstraints (fun i hi => (he i hi).1.mono hdecision) (hwithin.mono hdecision)
      (fun k hk => (supply.serial_column_lt true hk).trans_le hstop)
      (fun k hk => (supply.after p.b).serial_column_lt false hk) rhs)⟩

end Reformulate

end Polyhedral

end RobustOpt
