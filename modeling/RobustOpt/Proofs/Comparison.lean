import RobustOpt.Operand.Comparison
import RobustOpt.Proofs.Geometry
import RobustOpt.Proofs.Operators

/-!
# Comparisons mean what they say

A comparison moves everything to the left, turns the number there into bounds, splits the bounds
into signed sides and, without parameters, writes them out as linear constraints. Each of these
readings says the same of all parameter values and points as the relation that was written.

## Main definitions

* `Sense.Relates`: the relation a comparison stands for.
* `Bounded.Admits`, `Bounded.SidesHold`: a constraint read by its bounds and by its sides.
* `UncertainConstraint.Consistent`: the readings of a constraint on decisions agree.
* `Operand.Expresses`: a constraint says what a relation does.

## Main statements

* `Bounded.admits_iff_sidesHold`, `UncertainConstraint.admits_iff_toLinear`: the readings agree.
* `Operand.compare_expresses`: comparisons of operands, and constraints with given bounds.
-/

namespace RobustOpt

/-! ## Relations -/

namespace Sense

/-- The relation a comparison stands for. -/
def Relates (s : Sense) (p q : ℚ) : Prop :=
  match s with
  | .le => p ≤ q
  | .ge => q ≤ p
  | .eq => p = q

theorem relates_sub (s : Sense) (p q : ℚ) : s.Relates (p - q) 0 ↔ s.Relates p q := by
  cases s with
  | le => exact sub_nonpos
  | ge => exact sub_nonneg
  | eq => exact sub_eq_zero

theorem relates_flip (s : Sense) (p q : ℚ) : s.flip.Relates p q ↔ s.Relates q p := by
  cases s with
  | le | ge => exact Iff.rfl
  | eq => exact eq_comm

theorem relates_add (s : Sense) (p q : ℚ) : s.Relates (p + q) 0 ↔ s.Relates p (-q) := by
  rw [← relates_sub s p (-q), sub_neg_eq_add]

end Sense

/-! ## Bounds and sides -/

namespace Bounded

variable {ε : Type} {c : Bounded ε Extended} {expr : ε} {q : ℚ}

/-- A value of the expression lies between the bounds. -/
def Admits (c : Bounded ε Extended) (q : ℚ) : Prop :=
  Scalar.le c.lower (.finite q) = true ∧ Scalar.le (.finite q) c.upper = true

/-- A value of the expression, times the sign, is at most the right side on every side. -/
def SidesHold (c : Bounded ε Extended) (q : ℚ) : Prop :=
  ∀ side ∈ c.sides, Scalar.le (side.1 * .finite q) side.2 = true

/-- Bounds that are absent or finite. -/
structure Proper (c : Bounded ε Extended) : Prop where
  lower : c.lower = .negInf ∨ Scalar.isFinite c.lower = true
  upper : c.upper = .posInf ∨ Scalar.isFinite c.upper = true

/-- Absent bounds say nothing. -/
theorem admits_iff (hc : c.Proper) (q : ℚ) :
    c.Admits q ↔ (Scalar.isFinite c.lower = true → c.lower.rat ≤ q)
      ∧ (Scalar.isFinite c.upper = true → q ≤ c.upper.rat) := by
  refine and_congr ?_ ?_
  · rcases hc.lower with h | h
    · rw [h]
      exact ⟨fun _ => nofun, fun _ => rfl⟩
    · obtain ⟨l, hl⟩ := Extended.isFinite_iff.mp h
      simp [hl]
  · rcases hc.upper with h | h
    · rw [h]
      exact ⟨fun _ => nofun, fun _ => rfl⟩
    · obtain ⟨b, hb⟩ := Extended.isFinite_iff.mp h
      simp [hb]

/-- The sides are the finite bounds, the lower one with both signs changed. -/
theorem admits_iff_sidesHold (hc : c.Proper) (q : ℚ) : c.Admits q ↔ c.SidesHold q := by
  have hlower : (∀ side ∈ (if Scalar.isFinite c.lower then [((-1 : Extended), -c.lower)] else []),
      Scalar.le (side.1 * .finite q) side.2 = true)
      ↔ (Scalar.isFinite c.lower = true → c.lower.rat ≤ q) := by
    split_ifs with h
    · obtain ⟨l, hl⟩ := Extended.isFinite_iff.mp h
      simp [hl, Extended.one_eq]
    · simp [h]
  have hupper : (∀ side ∈ (if Scalar.isFinite c.upper then [((1 : Extended), c.upper)] else []),
      Scalar.le (side.1 * .finite q) side.2 = true)
      ↔ (Scalar.isFinite c.upper = true → q ≤ c.upper.rat) := by
    split_ifs with h
    · obtain ⟨b, hb⟩ := Extended.isFinite_iff.mp h
      simp [hb, Extended.one_eq]
    · simp [h]
  rw [admits_iff hc, SidesHold, sides, List.forall_mem_append, hlower, hupper, and_comm]

theorem ofBounds_eq_ok {lower upper : Extended} (h : ofBounds expr lower upper = .ok c) :
    c = ⟨expr, lower, upper⟩ := by
  unfold ofBounds at h
  split_ifs at h
  exact (Except.ok.inj h).symm

/-- The bounds of a comparison with a number admit the values in relation to the number. -/
theorem compare_spec {s : Sense} (h : compare expr (.finite q) s = .ok c) :
    c.expr = expr ∧ c.Proper ∧ ∀ z, c.Admits z ↔ s.Relates z q := by
  cases s with
  | le =>
    obtain rfl := ofBounds_eq_ok h
    have hc : (Bounded.mk expr (-Scalar.infinity) (Extended.finite q)).Proper :=
      ⟨.inl rfl, .inr rfl⟩
    refine ⟨rfl, hc, fun z => (admits_iff hc z).trans ?_⟩
    exact ⟨fun h => h.2 rfl, fun h => ⟨nofun, fun _ => h⟩⟩
  | ge =>
    obtain rfl := ofBounds_eq_ok h
    have hc : (Bounded.mk expr (Extended.finite q) Scalar.infinity).Proper :=
      ⟨.inr rfl, .inl rfl⟩
    refine ⟨rfl, hc, fun z => (admits_iff hc z).trans ?_⟩
    exact ⟨fun h => h.1 rfl, fun h => ⟨fun _ => h, nofun⟩⟩
  | eq =>
    obtain rfl := ofBounds_eq_ok h
    have hc : (Bounded.mk expr (Extended.finite q) (Extended.finite q)).Proper :=
      ⟨.inr rfl, .inr rfl⟩
    refine ⟨rfl, hc, fun z => (admits_iff hc z).trans ?_⟩
    exact ⟨fun h => le_antisymm (h.2 rfl) (h.1 rfl), fun h => ⟨fun _ => h.ge, fun _ => h.le⟩⟩

end Bounded

/-! ## Constraints written out -/

/-- The part without parameters of a certain expression is all of it. -/
theorem Mixed.eval_toAffine {e : Mixed Extended} (he : e.Finite) (hc : e.isCertain = true)
    (u : ℕ → ℚ) (x : Point) : e.toAffine.eval x.exact = .finite (e.denote u x) := by
  simp only [isCertain, Bool.and_eq_true, List.all_eq_true] at hc
  have hterms : (e.terms.map fun t => t.2.denote u * x t.1.column)
      = e.terms.map fun t => t.2.constant.rat * x t.1.column :=
    List.map_congr_left fun t ht => by rw [Uncertain.denote_of_isConstant (hc.2 t ht)]
  rw [toAffine, Affine.eval_combination he.1.1
    (List.forall_mem_map.mpr fun t ht => (he.2 t ht).1), List.map_map, denote, hterms,
    Uncertain.denote_of_isConstant hc.1, add_comm]
  rfl

namespace LinearConstraint

theorem holds_atMost {e f : Affine Extended} {v : Column → Extended} :
    (atMost e f).Holds v ↔ Scalar.le (e.eval v) (f.eval v) = true := by
  simp [Holds, atMost, Relation.holds]

theorem holds_equal {e f : Affine Extended} {v : Column → Extended} :
    (equal e f).Holds v ↔ Scalar.eq (e.eval v) (f.eval v) = true := by
  simp [Holds, equal, Relation.holds]

end LinearConstraint

/-- Proper bounds are equal only if both are one number. -/
theorem Bounded.isEquality_iff {ε : Type} {c : Bounded ε Extended} (hc : c.Proper) :
    c.isEquality = true ↔ ∃ b, c.lower = .finite b ∧ c.upper = .finite b := by
  rw [isEquality]
  constructor
  · intro h
    rcases hc.lower with hl | hl <;> rcases hc.upper with hu | hu
    · rw [hl, hu] at h
      cases h
    · obtain ⟨b, hb⟩ := Extended.isFinite_iff.mp hu
      rw [hl, hb] at h
      cases h
    · obtain ⟨l, hl⟩ := Extended.isFinite_iff.mp hl
      rw [hl, hu] at h
      cases h
    · obtain ⟨l, hl⟩ := Extended.isFinite_iff.mp hl
      obtain ⟨b, hb⟩ := Extended.isFinite_iff.mp hu
      rw [hl, hb, Extended.eq_finite, decide_eq_true_eq] at h
      exact ⟨b, h ▸ hl, hb⟩
  · rintro ⟨b, hl, hb⟩
    simp [hl, hb]

namespace UncertainConstraint

variable {c : UncertainConstraint Extended}

/-- A certain constraint written out holds where the bounds admit the expression. -/
theorem admits_iff_toLinear (hc : Bounded.Proper c) (he : c.expr.Finite)
    (hcertain : c.isCertain = true) (u : ℕ → ℚ) (x : Point) :
    Bounded.Admits c (c.expr.denote u x) ↔ ∀ l ∈ c.toLinear, l.Holds x.exact := by
  have heval := Mixed.eval_toAffine he hcertain u x
  rw [toLinear]
  by_cases heq : Bounded.isEquality c = true
  · obtain ⟨b, hl, hb⟩ := (Bounded.isEquality_iff hc).mp heq
    rw [if_pos heq, List.forall_mem_singleton, LinearConstraint.holds_equal, heval, Affine.eval, hb,
      Bounded.Admits, hl, hb]
    simp only [Extended.le_finite, Extended.eq_finite, decide_eq_true_eq]
    rw [le_antisymm_iff, and_comm]
  · rw [if_neg heq, List.forall_mem_append, Bounded.admits_iff hc]
    refine and_congr ?_ ?_
    · split_ifs with h
      · obtain ⟨l, hl⟩ := Extended.isFinite_iff.mp h
        simp [LinearConstraint.holds_atMost, Affine.eval, heval, hl]
      · simp [h]
    · split_ifs with h
      · obtain ⟨b, hb⟩ := Extended.isFinite_iff.mp h
        simp [LinearConstraint.holds_atMost, Affine.eval, heval, hb]
      · simp [h]

/-- The bounds, the sides and the linear constraints of a constraint say the same of parameter
values and a point. The linear constraints are those of a constraint without parameters. -/
def Consistent (c : UncertainConstraint Extended) (u : ℕ → ℚ) (x : Point) : Prop :=
  (Bounded.Admits c (c.expr.denote u x) ↔ Bounded.SidesHold c (c.expr.denote u x))
    ∧ (c.hasDecisions = true → c.isCertain = true →
      (Bounded.Admits c (c.expr.denote u x) ↔ ∀ l ∈ c.toLinear, l.Holds x.exact))

theorem consistent (hc : Bounded.Proper c) (he : c.expr.Finite) (u : ℕ → ℚ) (x : Point) :
    c.Consistent u x :=
  ⟨Bounded.admits_iff_sidesHold hc _, fun _ hcertain => admits_iff_toLinear hc he hcertain u x⟩

end UncertainConstraint

/-! ## Comparisons -/

/-- Comparing an expression with zero bounds the expression without its constant. -/
theorem Uncertain.relate_spec {e : Uncertain Extended} {s : Sense} {c : SetConstraint Extended}
    (he : e.Finite) (h : e.relate s = .ok c) :
    c.expr.constant = 0 ∧ c.Proper
      ∧ ∀ u, s.Relates (e.denote u) 0 ↔ c.Admits (c.expr.denote u) := by
  rw [relate, ← Extended.finite_rat (Extended.isFinite_neg.mpr he.1), Extended.rat_neg he.1] at h
  obtain ⟨hexpr, hproper, hadmits⟩ := Bounded.compare_spec h
  refine ⟨by rw [hexpr]; rfl, hproper, fun u => ?_⟩
  rw [hadmits, hexpr, denote_eq_homogeneous, Sense.relates_add]

/-- Comparing an expression with zero bounds the expression without the number in its constant. -/
theorem Mixed.relate_spec {e : Mixed Extended} {s : Sense} {c : UncertainConstraint Extended}
    (he : e.Finite) (h : e.relate s = .ok c) :
    c.expr.constant.constant = 0 ∧ c.expr.Finite ∧ Bounded.Proper c
      ∧ ∀ u x, s.Relates (e.denote u x) 0 ↔ Bounded.Admits c (c.expr.denote u x) := by
  rw [relate, ← Extended.finite_rat (Extended.isFinite_neg.mpr he.1.1), Extended.rat_neg he.1.1]
    at h
  obtain ⟨hexpr, hproper, hadmits⟩ := Bounded.compare_spec h
  refine ⟨by rw [hexpr]; rfl, by rw [hexpr]; exact ⟨he.1.homogeneous, he.2⟩, hproper, ?_⟩
  intro u x
  rw [hadmits, hexpr, denote, denote, Uncertain.denote_eq_homogeneous, ← add_assoc,
    Sense.relates_add]

namespace Operand

/-- The constraint says of all parameter values and points what the relation `P` does, in each of
its readings, and its expression has no number of its own. -/
def Expresses (tag : ℕ) (P : (ℕ → ℚ) → Point → Prop) (r : Operand Extended) : Prop :=
  (∃ c : SetConstraint Extended, r = setConstraint c ∧ c.expr.constant = 0
    ∧ ∀ u x, (P u x ↔ c.Admits (c.expr.denote u)) ∧ (P u x ↔ c.SidesHold (c.expr.denote u)))
  ∨ ∃ c : UncertainConstraint Extended, r = uncertainConstraint ⟨tag, c⟩
    ∧ c.expr.constant.constant = 0
    ∧ ∀ u x, (P u x ↔ Bounded.Admits c (c.expr.denote u x)) ∧ c.Consistent u x

variable {f : (ℕ → ℚ) → Point → ℚ} {d r : Operand Extended}

/-- A difference compared with zero. -/
theorem relate_expresses {tag : ℕ} {s : Sense} (hd : d.Denotes f) (h : d.relate tag s = .ok r) :
    Expresses tag (fun u x => s.Relates (f u x) 0) r := by
  cases d with
  | uncertain e =>
    obtain ⟨c, hc, h⟩ := bind_eq_ok.mp h
    obtain rfl := pure_eq_ok.mp h
    obtain ⟨hef, hev⟩ := denotes_uncertain.mp hd
    obtain ⟨hconst, hproper, hadmits⟩ := Uncertain.relate_spec hef hc
    refine .inl ⟨c, rfl, hconst, fun u x => ?_⟩
    have hP : s.Relates (f u x) 0 ↔ c.Admits (c.expr.denote u) := by rw [← hev u x, hadmits]
    exact ⟨hP, hP.trans (Bounded.admits_iff_sidesHold hproper _)⟩
  | mixed e =>
    obtain ⟨c, hc, h⟩ := bind_eq_ok.mp h
    obtain rfl := pure_eq_ok.mp h
    obtain ⟨hef, hev⟩ := denotes_mixed.mp hd
    obtain ⟨hconst, hfin, hproper, hadmits⟩ := Mixed.relate_spec hef hc
    refine .inr ⟨c, rfl, hconst, fun u x => ⟨?_, c.consistent hproper hfin u x⟩⟩
    show s.Relates (f u x) 0 ↔ _
    rw [← hev, hadmits]
  | _ => cases h

/-- A bound that is absent or converts to a finite scalar. -/
def IsBound (v : Operand Extended) : Prop :=
  v = literal .absent ∨ ∃ q, v.toScalar = .ok (.finite q)

/-- A given bound counts as missing if it is absent and is finite otherwise. -/
theorem IsBound.eq_or {v : Operand Extended} (hv : v.IsBound) {l : Literal Extended}
    {missing b : Extended} (hl : v.toBound = .ok l) (hb : l.toBound missing = .ok b) :
    b = missing ∨ Scalar.isFinite b = true := by
  rcases hv with rfl | ⟨q, hq⟩
  · obtain rfl := Except.ok.inj hl
    exact .inl (Except.ok.inj hb).symm
  · have hl : v = literal .absent ∨ l = .real (.finite q) := by
      unfold toBound at hl
      split at hl
      · exact .inl rfl
      · rw [hq] at hl
        exact .inr (Except.ok.inj hl).symm
    rcases hl with rfl | rfl
    · cases hq
    · obtain rfl := Except.ok.inj hb
      exact .inr rfl

theorem Expresses.congr {tag : ℕ} {P Q : (ℕ → ℚ) → Point → Prop} (h : Expresses tag P r)
    (hPQ : ∀ u x, P u x ↔ Q u x) : Expresses tag Q r := by
  have : P = Q := funext fun u => funext fun x => propext (hPQ u x)
  rwa [← this]

variable {v w : Operand Extended}

/-- A comparison with an expression takes the difference in one order or the other. -/
theorem expresses_of_compare {tag : ℕ} {s : Sense} (hv : v.Exact) (hw : w.Exact)
    (hne : v.number? = none ∨ w.number? = none) (h : compare tag s v w = .ok r) :
    Expresses tag (fun u x => s.Relates (v.denote u x) (w.denote u x)) r := by
  obtain ⟨t, ht, -, -⟩ | ⟨a, p, ha, -, -⟩ := hv.denotes.term_or_number
  · simp only [compare, ht] at h
    obtain ⟨d, hd, h⟩ := bind_eq_ok.mp h
    exact (relate_expresses (hv.denotes.sub hw.denotes hd) h).congr fun u x => s.relates_sub _ _
  · obtain ⟨hterm, -, haffine⟩ := of_number? ha
    obtain ⟨t, ht, -, -⟩ | ⟨b, q, hb, -, -⟩ := hw.denotes.term_or_number
    · simp only [compare, hterm, ht, haffine, Bool.false_eq_true, if_false] at h
      obtain ⟨d, hd, h⟩ := bind_eq_ok.mp h
      refine (relate_expresses (hw.denotes.sub hv.denotes hd) h).congr fun u x => ?_
      rw [s.flip.relates_sub, s.relates_flip]
    · rcases hne with hne | hne
      · cases ha.symm.trans hne
      · cases hb.symm.trans hne

/-- A constraint with given bounds keeps its expression. -/
theorem consistent_of_buildConstraint {tag : ℕ} {expr lower upper : Operand Extended}
    (he : expr.Exact) (hl : lower.IsBound) (hu : upper.IsBound)
    (h : buildConstraint tag expr lower upper = .ok r) :
    ∃ c : UncertainConstraint Extended, r = uncertainConstraint ⟨tag, c⟩
      ∧ ∀ u x, c.expr.denote u x = expr.denote u x ∧ c.Consistent u x := by
  obtain ⟨e, hcast, h⟩ := bind_eq_ok.mp h
  obtain ⟨l, hlower, h⟩ := bind_eq_ok.mp h
  obtain ⟨b, hupper, h⟩ := bind_eq_ok.mp h
  obtain ⟨c, hc, h⟩ := bind_eq_ok.mp h
  obtain rfl := pure_eq_ok.mp h
  obtain ⟨lb, hlb, hc⟩ := bind_eq_ok.mp hc
  obtain ⟨ub, hub, hc⟩ := bind_eq_ok.mp hc
  obtain rfl := Bounded.ofBounds_eq_ok hc
  obtain ⟨hfin, hval⟩ := denotes_mixed.mp (he.denotes.toMixed hcast)
  have hproper : (Bounded.mk e lb ub).Proper := ⟨hl.eq_or hlower hlb, hu.eq_or hupper hub⟩
  exact ⟨_, rfl, fun u x => ⟨hval u x, UncertainConstraint.consistent hproper hfin u x⟩⟩

/-- Comparing exact operands, not both numbers, expresses their relation; and the readings of a
constraint agree, also if it was made of given bounds and its expression keeps a number. -/
theorem compare_expresses :
    (∀ (tag : ℕ) (s : Sense) (v w r : Operand Extended), v.Exact → w.Exact →
        (v.number? = none ∨ w.number? = none) → compare tag s v w = .ok r →
        Expresses tag (fun u x => s.Relates (v.denote u x) (w.denote u x)) r)
      ∧ ∀ (tag : ℕ) (expr lower upper r : Operand Extended), expr.Exact →
        lower.IsBound → upper.IsBound → buildConstraint tag expr lower upper = .ok r →
        ∃ c : UncertainConstraint Extended, r = uncertainConstraint ⟨tag, c⟩
          ∧ ∀ u x, c.expr.denote u x = expr.denote u x ∧ c.Consistent u x :=
  ⟨fun _ _ _ _ _ hv hw hne h => expresses_of_compare hv hw hne h,
    fun _ _ _ _ _ he hl hu h => consistent_of_buildConstraint he hl hu h⟩

/-- A product of a parameter and a decision, and two. -/
def load : Mixed Extended :=
  ⟨[(⟨0, 0, "x", .negInf, .posInf, ⟨0, none, .decision 0, false, false⟩⟩,
    .ofParameter ⟨0, 0, .text "u", .finite 0, .finite 1⟩)], .ofConstant (.finite 2)⟩

/-- A decision and two. -/
def stock : Mixed Extended :=
  ⟨[(⟨0, 0, "x", .negInf, .posInf, ⟨0, none, .decision 0, false, false⟩⟩,
    .ofConstant (.finite 1))], .ofConstant (.finite 2)⟩

theorem load_finite : load.Finite :=
  ⟨Uncertain.finite_ofConstant.mpr rfl, by simpa [load] using Uncertain.finite_ofParameter _⟩

theorem stock_finite : stock.Finite :=
  ⟨Uncertain.finite_ofConstant.mpr rfl, by simpa [stock] using Uncertain.finite_ofConstant.mpr rfl⟩

/-- The number three bounds the one expression from below, and the other one lies between one and
five, written with its constant. -/
theorem load_stock_expresses :
    (∃ r, compare 0 .ge (literal (.real (.finite 3))) (mixed load) = .ok r
      ∧ Expresses 0 (fun u x => Sense.ge.Relates 3 (load.denote u x)) r)
      ∧ ∃ c : UncertainConstraint Extended,
        buildConstraint 1 (mixed stock) (literal (.real (.finite 1))) (literal (.real (.finite 5)))
          = .ok (uncertainConstraint ⟨1, c⟩)
        ∧ c.hasDecisions = true ∧ c.isCertain = true ∧ ∀ u x, c.Consistent u x := by
  refine ⟨⟨_, rfl, ?_⟩, _, rfl, rfl, rfl, fun u x => ?_⟩
  · exact compare_expresses.1 0 .ge _ (mixed load) _ (denotes_literal (.real 3)).exact load_finite
      (.inr rfl) rfl
  · obtain ⟨c, hc, h⟩ := compare_expresses.2 1 (mixed stock) (literal (.real (.finite 1)))
      (literal (.real (.finite 5))) _ stock_finite (.inr ⟨1, rfl⟩) (.inr ⟨5, rfl⟩) rfl
    cases hc
    exact (h u x).2

end Operand

end RobustOpt
