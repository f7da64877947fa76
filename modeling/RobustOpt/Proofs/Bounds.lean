import Mathlib.Data.EReal.Operations
import RobustOpt.Model.Workspace
import RobustOpt.Proofs.Comparison
import RobustOpt.Proofs.Polyhedral.WorstCase

/-!
# Accepted bounds

A variable, a parameter and a constraint take a lower and an upper bound, each of which may be
absent or infinite, and each turns them into inequalities in its own way. A constraint needs a
finite bound, and infinite ones can be left out. Equal bounds of a parameter become an equation,
which has no solution if they are infinite. The inequalities of a variable leave out whatever is
infinite, so that one whose bounds are both the same infinity is not bounded at all.

Whether inequalities hold is asked at real numbers, the bounds being extended reals.

## Main definitions

* `Extended.toEReal`: the extended real number that a scalar stands for.
* `Spans`: a number lies between two bounds.
* `AtInfinity`: both bounds are the same infinity.
* `Limits`: what bounds that are absent or numbers stand for.

## Main statements

* `InOrder.respects_iff`: infinite bounds can be left out, unless both are the same.
* `Polyhedron.holdsAt_addBounds`: the rows of a parameter enforce its bounds.
* `accepted_bounds_spec`: what the inequalities of accepted bounds enforce.
-/

namespace RobustOpt

open Finset

/-! ## Extended real numbers -/

namespace Extended

/-- The extended real number that a scalar stands for. The undefined value stands for none and is
read as zero. -/
noncomputable def toEReal : Extended → EReal
  | finite q => ((q : ℝ) : EReal)
  | posInf => ⊤
  | negInf => ⊥
  | undefined => 0

@[simp] theorem toEReal_finite (q : ℚ) : (finite q).toEReal = ((q : ℝ) : EReal) := rfl

@[simp] theorem toEReal_zero : (0 : Extended).toEReal = 0 := by
  show (((0 : ℚ) : ℝ) : EReal) = 0
  simp

@[simp] theorem toEReal_one : (1 : Extended).toEReal = 1 := by
  show (((1 : ℚ) : ℝ) : EReal) = 1
  simp

@[simp] theorem toEReal_neg (x : Extended) : (-x).toEReal = -x.toEReal := by
  cases x with
  | finite q => simp
  | posInf => exact EReal.neg_top.symm
  | negInf => exact EReal.neg_bot.symm
  | undefined => exact neg_zero.symm

end Extended

/-- A number lies between two bounds. -/
def Spans (lower upper : Extended) (v : ℝ) : Prop :=
  lower.toEReal ≤ (v : EReal) ∧ (v : EReal) ≤ upper.toEReal

/-- A number respects those of two bounds that are finite. -/
def Respects (lower upper : Extended) (v : ℝ) : Prop :=
  (Scalar.isFinite lower = true → lower.toEReal ≤ (v : EReal))
    ∧ (Scalar.isFinite upper = true → (v : EReal) ≤ upper.toEReal)

/-- Bounds that are defined and do not cross. -/
structure InOrder (lower upper : Extended) : Prop where
  lower_ne : lower ≠ .undefined
  upper_ne : upper ≠ .undefined
  not_crossed : Scalar.lt upper lower = false

/-- Both bounds are the same infinity. -/
def AtInfinity (lower upper : Extended) : Prop := lower = upper ∧ Scalar.isFinite lower = false

variable {lower upper : Extended} {v : ℝ}

/-- Bounds that are not finite can be left out, unless both are the same infinity. -/
theorem InOrder.respects_iff (h : InOrder lower upper) :
    Respects lower upper v ↔ Spans lower upper v ∨ AtInfinity lower upper := by
  obtain ⟨hl, ht, hle⟩ := h
  cases lower <;> cases upper <;>
    simp_all [Respects, Spans, AtInfinity, Extended.toEReal, Scalar.isFinite, Scalar.toRat?,
      Extended.toRat?, Scalar.lt, Extended.lt]

theorem InOrder.eq_iff (h : InOrder lower upper) :
    Scalar.eq lower upper = true ↔ lower = upper := by
  obtain ⟨hl, ht, -⟩ := h
  cases lower <;> cases upper <;> simp_all [Scalar.eq, Extended.eq]

theorem AtInfinity.not_spans (h : AtInfinity lower upper) (hl : lower ≠ .undefined) :
    ¬ Spans lower upper v := by
  obtain ⟨rfl, hfin⟩ := h
  cases lower <;> simp_all [Spans, Extended.toEReal, Scalar.isFinite, Scalar.toRat?,
    Extended.toRat?]

/-! ## Decision variables -/

/-- The value of an expression at real values of the columns. -/
noncomputable def Affine.atReals (v : Column → ℝ) : Affine Extended → EReal
  | constant c => c.toEReal
  | column _ c => (v c : EReal)
  | neg e => -e.atReals v
  | add e f => e.atReals v + f.atReals v
  | scale c e => c.toEReal * e.atReals v
  | scaleRight e c => e.atReals v * c.toEReal
  | divide e c => e.atReals v / c.toEReal

/-- Every comparison of the constraint is true at real values of the columns. -/
def LinearConstraint.HoldsAt (v : Column → ℝ) (c : LinearConstraint Extended) : Prop :=
  ∀ s ∈ c.sides, match c.relation with
    | .atMost => s.1.atReals v ≤ s.2.atReals v
    | .equal => s.1.atReals v = s.2.atReals v

theorem Decision.boundConstraints_iff (x : Decision Extended) (v : Column → ℝ) :
    (∀ c ∈ x.boundConstraints, c.HoldsAt v) ↔ Respects x.lower x.upper (v x.column) := by
  rw [boundConstraints, List.forall_mem_append, Respects]
  refine and_congr ?_ ?_
  · split_ifs with h <;> simp [LinearConstraint.HoldsAt, LinearConstraint.atMost, Affine.atReals,
      Decision.toAffine, h]
  · split_ifs with h <;> simp [LinearConstraint.HoldsAt, LinearConstraint.atMost, Affine.atReals,
      Decision.toAffine, h]

/-! ## Sides of constraints -/

namespace Bounded

variable {ε : Type} {c : Bounded ε Extended}

/-- A real value of the expression, times the sign, is at most the right side on every side. -/
def SidesHoldAt (c : Bounded ε Extended) (v : ℝ) : Prop :=
  ∀ side ∈ c.sides, side.1.toEReal * (v : EReal) ≤ side.2.toEReal

theorem sidesHoldAt_iff (c : Bounded ε Extended) (v : ℝ) :
    c.SidesHoldAt v ↔ Respects c.lower c.upper v := by
  rw [SidesHoldAt, sides, List.forall_mem_append, and_comm, Respects]
  refine and_congr ?_ ?_
  · split_ifs with h <;> simp [h]
  · split_ifs with h <;> simp [h]

end Bounded

/-! ## Rows of parameters -/

namespace Polyhedron

variable {p : Polyhedron Extended} {n i : ℕ} {row : List Extended} {b : Extended} {u : ℕ → ℝ}

/-- The left side of a row at real values of the parameters. -/
noncomputable def rowAt (n : ℕ) (row : List Extended) (u : ℕ → ℝ) : EReal :=
  ∑ i ∈ range n, (row.getD i 0).toEReal * (u i : EReal)

/-- Real values of the first `n` parameters satisfy all inequalities and equations. -/
def HoldsAt (p : Polyhedron Extended) (n : ℕ) (u : ℕ → ℝ) : Prop :=
  (∀ r ∈ p.a.zip p.b, rowAt n r.1 u ≤ r.2.toEReal) ∧ ∀ r ∈ p.e.zip p.f, rowAt n r.1 u = r.2.toEReal

theorem holdsAt_addInequality (hp : p.Regular n) :
    (p.addInequality row b).HoldsAt n u ↔ p.HoldsAt n u ∧ rowAt n row u ≤ b.toEReal := by
  simp only [HoldsAt, addInequality, List.zip_append hp.inequalities, List.mem_append,
    List.zip_cons_cons, List.zip_nil_right, List.mem_singleton, or_imp, forall_and, forall_eq]
  tauto

theorem holdsAt_addEquation (hp : p.Regular n) :
    (p.addEquation row b).HoldsAt n u ↔ p.HoldsAt n u ∧ rowAt n row u = b.toEReal := by
  simp only [HoldsAt, addEquation, List.zip_append hp.equations, List.mem_append,
    List.zip_cons_cons, List.zip_nil_right, List.mem_singleton, or_imp, forall_and, forall_eq]
  tauto

/-- The row of a parameter, times a number. -/
theorem rowAt_map_unit (hi : i < n) (f : Extended → Extended) (hf : (f 0).toEReal = 0)
    (u : ℕ → ℝ) : rowAt n ((unit n i).map f) u = (f 1).toEReal * (u i : EReal) := by
  rw [rowAt, sum_eq_single i]
  · simp [unit, hi]
  · intro j hj hji
    simp [unit, mem_range.mp hj, hji, hf]
  · simp [hi]

theorem rowAt_unit (hi : i < n) (u : ℕ → ℝ) : rowAt n (unit n i) u = (u i : EReal) := by
  simpa using rowAt_map_unit hi id Extended.toEReal_zero u

theorem rowAt_neg_unit (hi : i < n) (u : ℕ → ℝ) :
    rowAt n ((unit n i).map (- ·)) u = -(u i : EReal) := by
  simpa using rowAt_map_unit hi (- ·) (by simp) u

/-- The rows of the bounds of a parameter. -/
theorem holdsAt_addBounds (hp : p.Regular n) (hi : i < n) (h : InOrder lower upper) :
    (p.addBounds n i lower upper).HoldsAt n u ↔ p.HoldsAt n u ∧ Spans lower upper (u i) := by
  have hup : (p.addInequality (unit n i) upper).HoldsAt n u
      ↔ p.HoldsAt n u ∧ (u i : EReal) ≤ upper.toEReal := by
    rw [holdsAt_addInequality hp, rowAt_unit hi]
  have hdown : ∀ {p : Polyhedron Extended}, p.Regular n →
      ((p.addInequality ((unit n i).map (- ·)) (-lower)).HoldsAt n u
        ↔ p.HoldsAt n u ∧ lower.toEReal ≤ (u i : EReal)) := by
    intro p hp
    rw [holdsAt_addInequality hp, rowAt_neg_unit hi, Extended.toEReal_neg, EReal.neg_le_neg_iff]
  by_cases heq : lower = upper
  · subst heq
    have hself : Scalar.eq lower lower = true := h.eq_iff.mpr rfl
    rw [addBounds, if_pos hself, holdsAt_addEquation hp, rowAt_unit hi, Spans, le_antisymm_iff,
      and_comm (a := lower.toEReal ≤ _)]
  · have hrespects : (p.addBounds n i lower upper).HoldsAt n u
        ↔ p.HoldsAt n u ∧ Respects lower upper (u i) := by
      rw [addBounds, if_neg (mt h.eq_iff.mp heq), Respects]
      split_ifs with ht hl hl
      · rw [hdown (hp.addInequality (by simp)), hup]
        simp [ht, hl, and_assoc, and_comm]
      · simp [hup, ht, hl]
      · simp [hdown hp, ht, hl]
      · simp [ht, hl]
    rw [hrespects, h.respects_iff, or_iff_left fun hinf => heq hinf.1]

/-- The rows of one polyhedron come first among those of another one. -/
structure Precedes (p q : Polyhedron Extended) : Prop where
  inequalities : p.a <+: q.a ∧ p.b <+: q.b
  equations : p.e <+: q.e ∧ p.f <+: q.f

theorem Precedes.refl (p : Polyhedron Extended) : p.Precedes p :=
  ⟨⟨List.prefix_refl _, List.prefix_refl _⟩, List.prefix_refl _, List.prefix_refl _⟩

theorem Precedes.trans {q r : Polyhedron Extended} (h : p.Precedes q) (h' : q.Precedes r) :
    p.Precedes r :=
  ⟨⟨h.inequalities.1.trans h'.inequalities.1, h.inequalities.2.trans h'.inequalities.2⟩,
    h.equations.1.trans h'.equations.1, h.equations.2.trans h'.equations.2⟩

theorem precedes_addSides (p : Polyhedron Extended) (row : List Extended)
    (sides : List (Extended × Extended)) : p.Precedes (p.addSides row sides) := by
  induction sides generalizing p with
  | nil => exact .refl p
  | cons side sides ih =>
    have hstep : p.Precedes (p.addInequality (row.map (side.1 * ·)) side.2) :=
      ⟨⟨List.prefix_append _ _, List.prefix_append _ _⟩, List.prefix_refl _, List.prefix_refl _⟩
    exact hstep.trans (ih _)

theorem precedes_addConstraint (p : Polyhedron Extended) (c : SetConstraint Extended)
    (row : List Extended) : p.Precedes (p.addConstraint c row) := by
  rw [addConstraint_eq]
  split_ifs
  · exact ⟨⟨List.prefix_refl _, List.prefix_refl _⟩, List.prefix_append _ _, List.prefix_append _ _⟩
  · exact precedes_addSides p row c.sides

theorem precedes_foldl (p : Polyhedron Extended)
    (l : List (SetConstraint Extended × List Extended)) :
    p.Precedes (l.foldl (fun p c => p.addConstraint c.1 c.2) p) := by
  induction l generalizing p with
  | nil => exact .refl p
  | cons c l ih => exact (precedes_addConstraint p c.1 c.2).trans (ih _)

end Polyhedron

namespace Polyhedral

variable {n : ℕ} {ls ts : List Extended}

/-- The rows of the bounds of all parameters. -/
theorem box_holdsAt (h : ∀ i < n, InOrder (ls.getD i 0) (ts.getD i 0)) {k : ℕ} (hk : k ≤ n) :
    (box n ls ts k).Regular n ∧ ∀ u, (box n ls ts k).HoldsAt n u
      ↔ ∀ i < k, Spans (ls.getD i 0) (ts.getD i 0) (u i) := by
  induction k with
  | zero =>
    refine ⟨⟨rfl, rfl, by simp [box, Polyhedron.empty]⟩, fun u => ?_⟩
    simp [box, Polyhedron.empty, Polyhedron.HoldsAt]
  | succ k ih =>
    obtain ⟨hreg, hbox⟩ := ih (by omega)
    have hstep : box n ls ts (k + 1)
        = (box n ls ts k).addBounds n k (ls.getD k 0) (ts.getD k 0) := by
      simp [box, List.range_succ]
    refine ⟨hstep ▸ hreg.addBounds k _ _, fun u => ?_⟩
    rw [hstep, Polyhedron.holdsAt_addBounds hreg hk (h k hk), hbox, Nat.forall_lt_succ_right]

/-- The rows of set constraints follow those of the bounds. -/
theorem precedes_polyhedronOf {cs : List (SetConstraint Extended)} {p : Polyhedron Extended}
    (h : polyhedronOf n ls ts cs = .ok p) :
    (box n ls ts n).Precedes p ∧ (cs = [] → p = box n ls ts n) := by
  obtain ⟨rows, -, h⟩ := bind_eq_ok.mp h
  obtain rfl := pure_eq_ok.mp h
  exact ⟨Polyhedron.precedes_foldl _ _, by rintro rfl; rfl⟩

end Polyhedral

/-! ## Accepted bounds -/

/-- Bounds as they are given, each of them absent or a number that may be infinite, and what they
stand for. An absent bound is infinite. -/
structure Limits (lower upper : Literal Extended) (l t : Extended) : Prop where
  lower : lower.toBound (-Scalar.infinity) = .ok l
  upper : upper.toBound Scalar.infinity = .ok t
  lower_ne : l ≠ .undefined
  upper_ne : t ≠ .undefined

namespace Limits

variable {lower upper : Literal Extended} {l t : Extended}

theorem of_checkBounds (h : Limits lower upper l t) {name : Literal Extended}
    {b : Extended × Extended} (hb : checkBounds name lower upper = .ok b) :
    b = (l, t) ∧ InOrder l t := by
  simp only [checkBounds, h.lower, h.upper] at hb
  obtain ⟨a, ha, hb⟩ := bind_eq_ok.mp hb
  obtain rfl := Except.ok.inj ha
  obtain ⟨c, hc, hb⟩ := bind_eq_ok.mp hb
  obtain rfl := Except.ok.inj hc
  split_ifs at hb with hcross
  · cases hb
  · exact ⟨(Except.ok.inj hb).symm, h.lower_ne, h.upper_ne, Bool.eq_false_iff.mpr hcross⟩

theorem of_addDecision (h : Limits lower upper l t) {w w' : Workspace Extended} {id : ℕ}
    {name : Literal Extended} {integer : Bool} {x : Decision Extended}
    (hx : w.addDecision id name lower upper integer = .ok (x, w')) :
    x.lower = l ∧ x.upper = t ∧ InOrder l t := by
  obtain ⟨b, hb, hx⟩ := bind_eq_ok.mp hx
  obtain ⟨rfl, horder⟩ := h.of_checkBounds hb
  dsimp only at hx
  split at hx
  · obtain ⟨rfl, -⟩ := Prod.mk.inj (pure_eq_ok.mp hx)
    exact ⟨rfl, rfl, horder⟩
  · cases hx

theorem of_addParameter (h : Limits lower upper l t) {w w' : Workspace Extended} {id : ℕ}
    {name : Literal Extended} {u : Parameter Extended}
    (hu : w.addParameter id name lower upper = .ok (u, w')) :
    u.lower = l ∧ u.upper = t ∧ InOrder l t := by
  obtain ⟨b, hb, hu⟩ := bind_eq_ok.mp hu
  obtain ⟨rfl, horder⟩ := h.of_checkBounds hb
  obtain ⟨rfl, -⟩ := Prod.mk.inj (pure_eq_ok.mp hu)
  exact ⟨rfl, rfl, horder⟩

/-- A constraint has a finite bound. -/
theorem of_build (h : Limits lower upper l t) {ε : Type} {expr : ε} {c : Bounded ε Extended}
    (hc : Bounded.build expr lower upper = .ok c) :
    c.lower = l ∧ c.upper = t ∧ InOrder l t ∧ ¬ AtInfinity l t := by
  obtain ⟨a, ha, hc⟩ := bind_eq_ok.mp hc
  obtain rfl := Except.ok.inj (h.lower.symm.trans ha)
  obtain ⟨b, hb, hc⟩ := bind_eq_ok.mp hc
  obtain rfl := Except.ok.inj (h.upper.symm.trans hb)
  have hexpr := Bounded.ofBounds_eq_ok hc
  unfold Bounded.ofBounds at hc
  split_ifs at hc with hcross hfinite
  subst hexpr
  refine ⟨rfl, rfl, ⟨h.lower_ne, h.upper_ne, Bool.eq_false_iff.mpr hcross⟩, ?_⟩
  rintro ⟨rfl, hinf⟩
  simp [hinf] at hfinite

end Limits

/-- A parameter was added to a model with bounds that are absent or numbers. -/
def Parameter.Accepted (u : Parameter Extended) : Prop :=
  ∃ (w w' : Workspace Extended) (id : ℕ) (name lower upper : Literal Extended),
    Limits lower upper u.lower u.upper ∧ w.addParameter id name lower upper = .ok (u, w')

/-- The rows of a parameter and the sides of a constraint hold for the numbers between their bounds.
So do the inequalities of a variable, unless both of its bounds are the same infinity. The rows of
the bounds of all parameters stand before those of set constraints. -/
theorem accepted_bounds_spec {lower upper : Literal Extended} {l t : Extended}
    (h : Limits lower upper l t) {us : List (Parameter Extended)} (hus : ∀ u ∈ us, u.Accepted)
    {cs : List (SetConstraint Extended)} {p : Polyhedron Extended}
    (hp : Polyhedral.polyhedronOf us.length (us.map Parameter.lower) (us.map Parameter.upper) cs
      = .ok p) :
    (∀ (w w' : Workspace Extended) (id : ℕ) (name : Literal Extended) (integer : Bool)
        (x : Decision Extended), w.addDecision id name lower upper integer = .ok (x, w') →
        ∀ v : Column → ℝ, (∀ c ∈ x.boundConstraints, c.HoldsAt v)
          ↔ Spans l t (v x.column) ∨ AtInfinity l t)
    ∧ (∀ (ε : Type) (expr : ε) (c : Bounded ε Extended), Bounded.build expr lower upper = .ok c →
        ∀ v : ℝ, c.SidesHoldAt v ↔ Spans l t v)
    ∧ (∀ (w w' : Workspace Extended) (id : ℕ) (name : Literal Extended) (u : Parameter Extended),
        w.addParameter id name lower upper = .ok (u, w') →
        ∀ (q : Polyhedron Extended) (n i : ℕ), q.Regular n → i < n → ∀ v : ℕ → ℝ,
          (q.addBounds n i u.lower u.upper).HoldsAt n v ↔ q.HoldsAt n v ∧ Spans l t (v i))
    ∧ ∃ rows : Polyhedron Extended, rows.Precedes p ∧ (cs = [] → p = rows)
        ∧ ∀ v : ℕ → ℝ, rows.HoldsAt us.length v
          ↔ ∀ (i : ℕ) (hi : i < us.length), Spans us[i].lower us[i].upper (v i) := by
  refine ⟨?_, ?_, ?_, ?_⟩
  · intro w w' id name integer x hx v
    obtain ⟨rfl, rfl, horder⟩ := h.of_addDecision hx
    rw [x.boundConstraints_iff, horder.respects_iff]
  · intro ε expr c hc v
    obtain ⟨rfl, rfl, horder, hfinite⟩ := h.of_build hc
    rw [c.sidesHoldAt_iff, horder.respects_iff, or_iff_left hfinite]
  · intro w w' id name u hu q n i hq hi v
    obtain ⟨rfl, rfl, horder⟩ := h.of_addParameter hu
    exact Polyhedron.holdsAt_addBounds hq hi horder
  · have horder : ∀ i < us.length, InOrder ((us.map Parameter.lower).getD i 0)
        ((us.map Parameter.upper).getD i 0) := by
      intro i hi
      obtain ⟨w, w', id, name, lower, upper, hlimits, hu⟩ := hus us[i] (List.getElem_mem hi)
      simpa [hi] using (hlimits.of_addParameter hu).2.2
    obtain ⟨hprecedes, hnil⟩ := Polyhedral.precedes_polyhedronOf hp
    refine ⟨_, hprecedes, hnil, fun v => ?_⟩
    rw [(Polyhedral.box_holdsAt horder le_rfl).2]
    refine forall₂_congr fun i hi => ?_
    simp [hi]

namespace Gauge

/-- A variable of at most four. -/
def reading : Decision Extended :=
  ⟨0, 0, "x", .negInf, .finite 4, ⟨0, none, .decision 0, false, false⟩⟩

/-- A parameter that no number is large enough for. -/
def overflow : Parameter Extended := ⟨0, 0, .text "u", .posInf, .posInf⟩

theorem limits_negInf_four : Limits (.real .negInf) (.real (.finite 4)) .negInf (.finite 4) :=
  ⟨rfl, rfl, nofun, nofun⟩

theorem limits_posInf_absent : Limits (.real .posInf) .absent .posInf .posInf :=
  ⟨rfl, rfl, nofun, nofun⟩

theorem accepted_overflow : overflow.Accepted :=
  ⟨.empty, _, 0, .text "u", .real .posInf, .absent, limits_posInf_absent, rfl⟩

theorem spans_three : Spans .negInf (.finite 4) 3 := by
  refine ⟨bot_le, ?_⟩
  rw [Extended.toEReal_finite, EReal.coe_le_coe_iff]
  norm_num

theorem not_spans_overflow (v : ℝ) : ¬ Spans overflow.lower overflow.upper v :=
  AtInfinity.not_spans ⟨rfl, rfl⟩ nofun

end Gauge

/-- Three is a value for a variable and a constraint of at most four, but none for a parameter that
is infinite. -/
theorem gauge_accepted_bounds_spec :
    (∀ c ∈ Gauge.reading.boundConstraints, c.HoldsAt fun _ => 3)
    ∧ (⟨(), .negInf, .finite 4⟩ : Bounded Unit Extended).SidesHoldAt 3
    ∧ ¬ (Polyhedron.empty.addBounds 1 0 Gauge.overflow.lower Gauge.overflow.upper).HoldsAt 1
      (fun _ => 3)
    ∧ ∃ p, Polyhedral.polyhedronOf 1 [Gauge.overflow.lower] [Gauge.overflow.upper] [] = .ok p
      ∧ ¬ p.HoldsAt 1 fun _ => 3 := by
  have hus := List.forall_mem_singleton.mpr Gauge.accepted_overflow
  obtain ⟨p, hp⟩ : ∃ p, Polyhedral.polyhedronOf 1 [Gauge.overflow.lower] [Gauge.overflow.upper] []
      = .ok p := ⟨_, rfl⟩
  obtain ⟨hdecision, hsides, -⟩ := accepted_bounds_spec Gauge.limits_negInf_four hus hp
  obtain ⟨-, -, hparameter, rows, -, hrows, hholds⟩ :=
    accepted_bounds_spec Gauge.limits_posInf_absent hus hp
  have hempty : (Polyhedron.empty : Polyhedron Extended).Regular 1 :=
    ⟨rfl, rfl, by simp [Polyhedron.empty]⟩
  refine ⟨?_, ?_, fun h => ?_, p, hp, fun h => ?_⟩
  · exact (hdecision .empty _ 0 (.text "x") false Gauge.reading rfl _).mpr (.inl Gauge.spans_three)
  · exact (hsides Unit () _ rfl 3).mpr Gauge.spans_three
  · have := (hparameter .empty _ 0 (.text "u") Gauge.overflow rfl _ 1 0 hempty one_pos _).mp h
    exact Gauge.not_spans_overflow 3 this.2
  · rw [hrows rfl] at h
    exact Gauge.not_spans_overflow 3 ((hholds _).mp h 0 one_pos)

/-- A variable of at least infinity is accepted, but no inequality keeps it from being zero. -/
theorem not_decision_bounds_enforced :
    ¬ ∀ (lower upper : Literal Extended) (l t : Extended), Limits lower upper l t →
      ∀ (w w' : Workspace Extended) (id : ℕ) (name : Literal Extended) (integer : Bool)
        (x : Decision Extended), w.addDecision id name lower upper integer = .ok (x, w') →
        ∀ v : Column → ℝ, (∀ c ∈ x.boundConstraints, c.HoldsAt v) ↔ Spans l t (v x.column) := by
  intro h
  have henforced :=
    h _ _ _ _ Gauge.limits_posInf_absent .empty _ 0 (.text "x") false _ rfl fun _ => 0
  exact Gauge.not_spans_overflow 0 (henforced.mp nofun)

end RobustOpt
