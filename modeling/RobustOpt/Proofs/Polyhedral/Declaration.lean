import RobustOpt.Proofs.Collection
import RobustOpt.Proofs.Comparison
import RobustOpt.Proofs.Polyhedral.WorstCase
import RobustOpt.UncertaintySet.Basic

/-!
# The polyhedron of what was declared

Set constraints reach a polyhedral set as comparisons or with given bounds, and as constraints on
parameters or on decisions that do not occur. Each of them is stored, and its rows say what its
bounds say of the collected coefficients. The number in the expression takes part in a comparison,
which moves it into the bounds. Given bounds apply to the expression without its number.

## Main definitions

* `Declaration`: a constraint on parameters as it is declared.
* `Declaration.Demands`: what a declaration says of parameter values.
* `Declaration.effective`: the expression that is bounded in fact.

## Main statements

* `Polyhedron.contains_addConstraint`: the rows of a set constraint say what its bounds say.
* `Polyhedral.polyhedronOf_contains`: the polyhedron of bounds and set constraints.
* `Declaration.exists_stored`: what a set stores of declarations.
* `Polyhedral.polyhedron_declares`: the polyhedron in terms of the declarations.
-/

namespace RobustOpt

open Finset Bilinear

/-! ## The rows of a set constraint -/

namespace Polyhedron

variable {p : Polyhedron Extended} {n : ℕ} {c : SetConstraint Extended} {u : ℕ → ℚ}

/-- A combination of the entries. -/
theorem dot_combination (k u : ℕ → ℚ) :
    Scalar.dot (scalars n k) (scalars n u) = .finite (∑ i ∈ range n, k i * u i) := by
  rw [dot_scalars fun _ => isFinite_of_mem_scalars]
  congr 1
  exact sum_congr rfl fun i hi => by rw [coord_scalars _ (mem_range.mp hi)]

theorem dot_signed {s : Extended} (hs : IsSign s) (k u : ℕ → ℚ) :
    Scalar.dot ((scalars n k).map (s * ·)) (scalars n u)
      = s * .finite (∑ i ∈ range n, k i * u i) := by
  obtain ⟨q, rfl⟩ : ∃ q, s = .finite q := hs.elim (fun h => ⟨1, h⟩) fun h => ⟨-1, h⟩
  have hmap : (scalars n k).map (Extended.finite q * ·) = scalars n fun i => q * k i := by
    simp [scalars, List.map_map, Function.comp_def]
  simp only [hmap, dot_combination, Extended.finite_mul, mul_sum, mul_assoc]

/-- An equation or the inequalities of the finite bounds. Either way the rows of a set constraint
say that its bounds admit the combination of the collected coefficients. -/
theorem contains_addConstraint (hp : p.Regular n) (hc : c.Proper) (k : ℕ → ℚ) :
    (p.addConstraint c (scalars n k)).Contains n u
      ↔ p.Contains n u ∧ c.Admits (∑ i ∈ range n, k i * u i) := by
  rw [addConstraint_eq]
  split_ifs with heq
  · obtain ⟨b, hl, hb⟩ := (Bounded.isEquality_iff hc).mp heq
    rw [contains_addEquation hp, Bounded.Admits, dot_combination, hl, hb]
    simp only [Extended.eq_finite, Extended.le_finite, decide_eq_true_eq]
    rw [le_antisymm_iff, and_comm (a := _ ≤ b)]
  · rw [contains_addSides hp (by simp), Bounded.admits_iff_sidesHold hc]
    refine and_congr_right fun _ => forall₂_congr fun side hside => ?_
    rw [dot_signed (Bounded.sides_spec hside).1]

/-- Finite coefficients and bounds make finite rows. -/
theorem Rational.addConstraint (hp : p.Rational) (hc : c.Proper) (k : ℕ → ℚ) :
    (p.addConstraint c (scalars n k)).Rational := by
  have hfinite : ∀ x ∈ scalars n k, Scalar.isFinite x = true := fun _ => isFinite_of_mem_scalars
  rw [addConstraint_eq]
  split_ifs with heq
  · obtain ⟨b, -, hb⟩ := (Bounded.isEquality_iff hc).mp heq
    exact hp.addEquation hfinite (by rw [hb]; rfl)
  · exact hp.addSides hfinite fun _ => Bounded.sides_spec

/-- The rows of set constraints, one after the other. -/
def addConstraints (n : ℕ) (p : Polyhedron Extended) (cs : List (SetConstraint Extended)) :
    Polyhedron Extended :=
  cs.foldl (fun p c => p.addConstraint c (scalars n c.expr.coefficient)) p

theorem addConstraints_spec (hp : p.Regular n) (hr : p.Rational)
    {cs : List (SetConstraint Extended)} (hcs : ∀ c ∈ cs, c.Proper) :
    (p.addConstraints n cs).Regular n ∧ (p.addConstraints n cs).Rational
      ∧ ∀ u, (p.addConstraints n cs).Contains n u
        ↔ p.Contains n u ∧ ∀ c ∈ cs, c.Admits (∑ i ∈ range n, c.expr.coefficient i * u i) := by
  induction cs generalizing p with
  | nil => exact ⟨hp, hr, fun u => by simp [addConstraints]⟩
  | cons c cs ih =>
    obtain ⟨hc, hcs⟩ := List.forall_mem_cons.mp hcs
    have hstep := (addConstraint_spec hp c (length_scalars n c.expr.coefficient)).1
    obtain ⟨hreg, hrat, hcontains⟩ := ih hstep (hr.addConstraint hc _) hcs
    refine ⟨hreg, hrat, fun u => (hcontains u).trans ?_⟩
    rw [contains_addConstraint hp hc, List.forall_mem_cons, and_assoc]

end Polyhedron

namespace Polyhedral

variable {n : ℕ} {lower upper : List Extended} {c : SetConstraint Extended}
  {cs : List (SetConstraint Extended)}

/-- A set constraint on the first parameters with proper bounds and exact coefficients. -/
structure IsExact (n : ℕ) (c : SetConstraint Extended) : Prop where
  proper : c.Proper
  collected : c.expr.CollectsExactly
  index_lt : ∀ t ∈ c.expr.terms, t.1.index < n

/-- The dense row of a set constraint has the exact coefficients. -/
theorem IsExact.yields_constraintRow (hc : IsExact n c) :
    (constraintRow n c).Yields (.empty n) (scalars n c.expr.coefficient) (.empty n) := by
  have hy := c.expr.yields_collectIn (.empty n) rfl hc.index_lt
  rw [ite_self, ← c.expr.collect_eq] at hy
  exact Action.yields_bind.mpr ⟨_, _, hy, Action.yields_pure.mpr ⟨hc.collected.foldl_set n, rfl⟩⟩

/-- The polyhedron has the rows of the bounds and those of the set constraints. -/
theorem polyhedronOf_eq (hcs : ∀ c ∈ cs, IsExact n c) :
    polyhedronOf n lower upper cs = .ok ((box n lower upper n).addConstraints n cs) := by
  let row : SetConstraint Extended → List Extended := fun c => scalars n c.expr.coefficient
  obtain ⟨rows, acc, hy, rfl, -⟩ := Action.exists_yields_mapM (f := constraintRow n) (l := cs)
    (s := .empty n) (fun done out acc => out = done.map row ∧ acc = .empty n) ⟨rfl, rfl⟩ (by
      rintro done out c acc hinit ⟨rfl, rfl⟩
      have hc : IsExact n c := hcs c (hinit.subset (by simp))
      exact ⟨_, _, hc.yields_constraintRow, by simp [row], rfl⟩)
  have hzip : cs.zip (cs.map row) = cs.map fun c => (c, row c) := by
    simpa using List.zip_map' (f := id) (g := row) (l := cs)
  unfold polyhedronOf
  rw [show ((cs.mapM (constraintRow n)).perform (.empty n)).1 = .ok (cs.map row) from
    congrArg Prod.fst hy]
  show Except.ok ((cs.zip (cs.map row)).foldl _ (box n lower upper n)) = _
  rw [hzip, List.foldl_map, Polyhedron.addConstraints]

/-- The polyhedron of bounds and set constraints contains the values between the bounds that the set
constraints admit, apart from the numbers in their expressions. -/
theorem polyhedronOf_contains {w : ℕ → ℚ} (hw : WithinBounds n lower upper w)
    (hcs : ∀ c ∈ cs, IsExact n c) :
    ∃ p, polyhedronOf n lower upper cs = .ok p ∧ p.Regular n ∧ p.Rational
      ∧ ∀ u, p.Contains n u ↔ WithinBounds n lower upper u
        ∧ ∀ c ∈ cs, c.Admits (c.expr.homogeneous.denote u) := by
  obtain ⟨hbox, hwithin⟩ := box_spec hw le_rfl
  obtain ⟨hreg, hrat, hcontains⟩ := Polyhedron.addConstraints_spec hbox (rational_box hw le_rfl)
    fun c hc => (hcs c hc).proper
  refine ⟨_, polyhedronOf_eq hcs, hreg, hrat, fun u => ?_⟩
  rw [hcontains, hwithin]
  refine and_congr_right fun _ => forall₂_congr fun c hc => ?_
  rw [c.expr.sum_coefficient (hcs c hc).index_lt]

/-- Bounds that are absent or finite and do not cross. -/
structure Ordered (lower upper : Extended) : Prop where
  below : lower = .negInf ∨ Scalar.isFinite lower = true
  above : upper = .posInf ∨ Scalar.isFinite upper = true
  le : Scalar.le lower upper = true

/-- There is a value between bounds that do not cross. -/
theorem Ordered.exists_between {l t : Extended} (h : Ordered l t) : ∃ q, Between l t q := by
  obtain ⟨hl | hl, ht | ht, hle⟩ := h
  · exact ⟨0, by simp [hl, Scalar.le, Extended.lt], by simp [ht, Scalar.le, Extended.lt]⟩
  · obtain ⟨b, rfl⟩ := Extended.isFinite_iff.mp ht
    exact ⟨b, hl ▸ hle, by simp⟩
  · obtain ⟨a, rfl⟩ := Extended.isFinite_iff.mp hl
    exact ⟨a, by simp, ht ▸ hle⟩
  · obtain ⟨a, rfl⟩ := Extended.isFinite_iff.mp hl
    exact ⟨a, by simp, hle⟩

theorem exists_withinBounds (h : ∀ i < n, Ordered (lower.getD i 0) (upper.getD i 0)) :
    ∃ w, WithinBounds n lower upper w := by
  have hw : ∀ i, ∃ q, i < n → Between (lower.getD i 0) (upper.getD i 0) q := by
    intro i
    by_cases hi : i < n
    · obtain ⟨q, hq⟩ := (h i hi).exists_between
      exact ⟨q, fun _ => hq⟩
    · exact ⟨0, fun h => absurd h hi⟩
  choose w hw using hw
  exact ⟨w, hw⟩

end Polyhedral

/-! ## Declarations -/

/-- Accepted bounds that are numbers or infinite are absent or finite. -/
theorem Bounded.proper_of_ofBounds {ε : Type} {expr : ε} {l t : Extended} {c : Bounded ε Extended}
    (h : ofBounds expr l t = .ok c) (hl : l ≠ .undefined) (ht : t ≠ .undefined) : c.Proper := by
  obtain rfl := ofBounds_eq_ok h
  unfold ofBounds at h
  split_ifs at h with hcross hfin
  constructor <;> cases l <;> cases t <;>
    simp_all [Scalar.lt, Extended.lt, Scalar.isFinite, Scalar.toRat?, Extended.toRat?]

/-- What is declared of an expression: its comparison with zero, or its bounds. -/
inductive Requirement where
  | compared (s : Sense)
  | bounded (lower upper : Literal Extended)

namespace Requirement

/-- A value of the expression is as required. An absent bound is infinite. -/
def Allows : Requirement → ℚ → Prop
  | compared s, q => s.Relates q 0
  | bounded lower upper, q => ∃ l t, lower.toBound (-Scalar.infinity) = .ok l
      ∧ upper.toBound Scalar.infinity = .ok t ∧ Between l t q

/-- The bounds are numbers, infinite or absent. -/
def Known : Requirement → Prop
  | compared _ => True
  | bounded lower upper => lower.toBound (-Scalar.infinity) ≠ .ok .undefined
      ∧ upper.toBound Scalar.infinity ≠ .ok .undefined

/-- The constraint on the values of an expression in parameters. -/
def constrain (e : Uncertain Extended) :
    Requirement → Except (Fault Extended) (SetConstraint Extended)
  | compared s => e.relate s
  | bounded lower upper => Bounded.build e lower upper

end Requirement

/-- A constraint on parameters as it is declared, of an expression in parameters or of one that may
have decisions. -/
inductive Declaration where
  | ofParameters (e : Uncertain Extended) (r : Requirement)
  | ofDecisions (e : Mixed Extended) (r : Requirement)

namespace Declaration

/-- The part of the expression without decisions. -/
def expr : Declaration → Uncertain Extended
  | ofParameters e _ => e
  | ofDecisions e _ => e.constant

/-- The value of the expression at parameter values and a point. -/
def value : Declaration → (ℕ → ℚ) → Point → ℚ
  | ofParameters e _, u, _ => e.denote u
  | ofDecisions e _, u, x => e.denote u x

def requirement : Declaration → Requirement
  | ofParameters _ r | ofDecisions _ r => r

/-- The values of the parameters are as declared, whatever the decisions are. -/
def Demands (d : Declaration) (u : ℕ → ℚ) : Prop := ∀ x, d.requirement.Allows (d.value u x)

/-- Build the constraint and add it to an uncertainty set. -/
def addTo (s : UncertaintySet Extended) :
    Declaration → Except (Fault Extended) (UncertaintySet Extended)
  | ofParameters e r => do s.addSetConstraint (← r.constrain e)
  | ofDecisions e (.compared sense) => do s.addUncertainConstraint (← e.relate sense)
  | ofDecisions e (.bounded lower upper) => do
    s.addUncertainConstraint (← Bounded.build e lower upper)

variable {d : Declaration} {ds : List Declaration} {s t : UncertaintySet Extended} {n : ℕ}

/-- What is stored for a declaration that is accepted, which has no decisions. -/
structure Stores (d : Declaration) (c : SetConstraint Extended) : Prop where
  constrain : d.requirement.constrain d.expr = .ok c
  value : ∀ u x, d.value u x = d.expr.denote u

/-- Bounds of an expression without decisions, read as bounds of its part without decisions. -/
theorem exists_of_addUncertainConstraint {e : Mixed Extended} {lower upper : Extended}
    {c : UncertainConstraint Extended} (hc : Bounded.ofBounds e lower upper = .ok c)
    (h : s.addUncertainConstraint c = .ok t) :
    e.hasDecisions = false
      ∧ ∃ c', Bounded.ofBounds e.constant lower upper = .ok c' ∧ s.addSetConstraint c' = .ok t := by
  obtain rfl := Bounded.ofBounds_eq_ok hc
  unfold UncertaintySet.addUncertainConstraint at h
  split_ifs at h with hdecisions
  · cases h
  · exact ⟨Bool.eq_false_iff.mpr hdecisions, bind_eq_ok.mp h⟩

theorem denote_of_hasDecisions {e : Mixed Extended} (h : e.hasDecisions = false) (u : ℕ → ℚ)
    (x : Point) : e.denote u x = e.constant.denote u := by
  have hterms : e.terms = [] := by simpa [Mixed.hasDecisions] using h
  simp [Mixed.denote, hterms]

/-- However a constraint is declared, the one that is stored is about the part of its expression
without decisions. -/
theorem exists_of_addTo (h : addTo s d = .ok t) :
    ∃ c, d.Stores c ∧ s.addSetConstraint c = .ok t := by
  cases d with
  | ofParameters e r =>
    obtain ⟨c, hc, hadd⟩ := bind_eq_ok.mp h
    exact ⟨c, ⟨hc, fun _ _ => rfl⟩, hadd⟩
  | ofDecisions e r =>
    cases r with
    | compared sense =>
      obtain ⟨c, hc, hadd⟩ := bind_eq_ok.mp h
      obtain ⟨hplain, c', hc', hadd⟩ : e.hasDecisions = false
          ∧ ∃ c', e.constant.relate sense = .ok c' ∧ s.addSetConstraint c' = .ok t := by
        cases sense <;> exact exists_of_addUncertainConstraint hc hadd
      exact ⟨c', ⟨hc', denote_of_hasDecisions hplain⟩, hadd⟩
    | bounded lower upper =>
      obtain ⟨c, hc, h⟩ := bind_eq_ok.mp h
      obtain ⟨a, ha, hc⟩ := bind_eq_ok.mp hc
      obtain ⟨b, hb, hc⟩ := bind_eq_ok.mp hc
      obtain ⟨hplain, c', hc', hadd⟩ := exists_of_addUncertainConstraint hc h
      exact ⟨c', ⟨bind_eq_ok.mpr ⟨a, ha, bind_eq_ok.mpr ⟨b, hb, hc'⟩⟩,
        denote_of_hasDecisions hplain⟩, hadd⟩

/-- What a polyhedral set stores of the declarations, in their order. -/
theorem exists_stored (h : ds.foldlM addTo s = .ok t) :
    ∃ cs, List.Forall₂ Stores ds cs ∧ t.setConstraints = s.setConstraints ++ cs := by
  induction ds generalizing s with
  | nil =>
    obtain rfl := Except.ok.inj h
    exact ⟨[], .nil, by simp⟩
  | cons d ds ih =>
    obtain ⟨s', hd, h⟩ := bind_eq_ok.mp h
    obtain ⟨c, hc, hadd⟩ := exists_of_addTo hd
    obtain ⟨cs, hcs, ht⟩ := ih h
    refine ⟨c :: cs, .cons hc hcs, ?_⟩
    cases s with
    | polyhedral plane data =>
      obtain rfl := Except.ok.inj hadd
      rw [ht]
      simp [UncertaintySet.setConstraints]
    | budget | bare | scripted => cases hadd

/-- What is known of a declaration: the numbers in its expression are finite, the parameters are
among the first ones, and their coefficients are collected exactly. -/
structure Exact (n : ℕ) (d : Declaration) : Prop where
  finite : d.expr.Finite
  known : d.requirement.Known
  index_lt : ∀ t ∈ d.expr.terms, t.1.index < n
  collected : d.expr.CollectsExactly

/-- Declarations in different parameters, with coefficients that are zero or not negligible. -/
theorem exact_of_distinct (hconstant : Scalar.isFinite d.expr.constant = true)
    (hknown : d.requirement.Known) (hlt : ∀ t ∈ d.expr.terms, t.1.index < n)
    (hnodup : (d.expr.terms.map fun t => t.1.index).Nodup)
    (hsharp : ∀ t ∈ d.expr.terms, Scalar.isSharp t.2 = true) : d.Exact n where
  finite := ⟨hconstant, fun t ht => Extended.isFinite_of_isSharp (hsharp t ht)⟩
  known := hknown
  index_lt := hlt
  collected := Uncertain.collectsExactly_of_distinct hnodup hsharp

/-- The expression that is bounded in fact. A comparison takes the number in it to the other side,
whereas given bounds are met by the part without it. -/
def effective (d : Declaration) : Uncertain Extended :=
  match d.requirement with
  | .compared _ => d.expr
  | .bounded _ _ => d.expr.homogeneous

/-- A declaration whose bounds are for an expression without a number. -/
def Normal (d : Declaration) : Prop := d.effective.constant = d.expr.constant

theorem Normal.demands_iff (hd : d.Normal) (hvalue : ∀ u x, d.value u x = d.expr.denote u)
    (u : ℕ → ℚ) : d.requirement.Allows (d.effective.denote u) ↔ d.Demands u := by
  have hterms : d.effective.terms = d.expr.terms := by
    unfold effective
    split <;> rfl
  have hdenote : d.effective.denote u = d.expr.denote u := by
    rw [Uncertain.denote, Uncertain.denote, hterms, hd]
  simp [Demands, hvalue, hdenote]

/-- The bounds of the stored constraint, for its expression without the number, say what was
declared of the expression that is bounded in fact. -/
theorem Exact.stored (hd : d.Exact n) {c : SetConstraint Extended} (hc : d.Stores c) :
    Polyhedral.IsExact n c ∧ ∀ u, c.Admits (c.expr.homogeneous.denote u)
        ↔ d.requirement.Allows (d.effective.denote u) := by
  replace hc := hc.constrain
  rw [effective]
  cases hr : d.requirement with
  | compared sense =>
    rw [hr] at hc
    obtain ⟨hconst, hproper, hadmits⟩ := Uncertain.relate_spec hd.finite hc
    have hexpr : c.expr = d.expr.homogeneous := by
      cases sense <;> rw [Bounded.ofBounds_eq_ok hc]
    refine ⟨⟨hproper, ?_, ?_⟩, fun u => ?_⟩
    · exact hexpr ▸ hd.collected.homogeneous
    · exact hexpr ▸ hd.index_lt
    · rw [hexpr] at hadmits ⊢
      exact (hadmits u).symm
  | bounded lower upper =>
    rw [hr] at hc
    obtain ⟨l, hl, hc⟩ := bind_eq_ok.mp hc
    obtain ⟨t, ht, hc⟩ := bind_eq_ok.mp hc
    have hknown : (Requirement.bounded lower upper).Known := hr ▸ hd.known
    have hproper := Bounded.proper_of_ofBounds hc (fun h => hknown.1 (h ▸ hl))
      fun h => hknown.2 (h ▸ ht)
    obtain rfl := Bounded.ofBounds_eq_ok hc
    refine ⟨⟨hproper, hd.collected, hd.index_lt⟩, fun u => ⟨fun h => ⟨l, t, hl, ht, h⟩, ?_⟩⟩
    rintro ⟨l', t', hl', ht', h⟩
    obtain rfl := Except.ok.inj (hl.symm.trans hl')
    obtain rfl := Except.ok.inj (ht.symm.trans ht')
    exact h

end Declaration

namespace Polyhedral

/-- The polyhedron of a set that accepted declarations contains the values between the bounds of the
parameters for which the expressions that are bounded in fact are as required. If the declarations
with given bounds have no number in their expression, these are the values that are as declared. -/
theorem polyhedron_declares {n : ℕ} {lower upper : List Extended} {ds : List Declaration}
    {s : UncertaintySet Extended}
    (hs : ds.foldlM Declaration.addTo UncertaintySet.newPolyhedral = .ok s)
    (hbounds : ∀ i < n, Ordered (lower.getD i 0) (upper.getD i 0)) (hd : ∀ d ∈ ds, d.Exact n) :
    ∃ p, polyhedronOf n lower upper s.setConstraints = .ok p ∧ p.Regular n ∧ p.Rational
      ∧ (∀ u, p.Contains n u ↔ WithinBounds n lower upper u
        ∧ ∀ d ∈ ds, d.requirement.Allows (d.effective.denote u))
      ∧ ((∀ d ∈ ds, d.Normal) →
        ∀ u, p.Contains n u ↔ WithinBounds n lower upper u ∧ ∀ d ∈ ds, d.Demands u) := by
  obtain ⟨cs, hstored, hcs⟩ := Declaration.exists_stored hs
  rw [show s.setConstraints = cs from hcs]
  have hall : List.Forall₂ (fun d c => Declaration.Exact n d ∧ d.Stores c) ds cs :=
    (List.forall₂_and_left _ _).mpr ⟨hd, hstored⟩
  have hexact : ∀ c ∈ cs, IsExact n c :=
    (forall_mem_iff_of_forall₂ hall (P := fun _ => True) fun d c h =>
      iff_of_true trivial (h.1.stored h.2).1).mp fun _ _ => trivial
  have hvalue : ∀ d ∈ ds, ∀ u x, d.value u x = d.expr.denote u :=
    (forall_mem_iff_of_forall₂ hall (Q := fun _ => True) fun d c h =>
      iff_of_true h.2.value trivial).mpr fun _ _ => trivial
  obtain ⟨w, hw⟩ := exists_withinBounds hbounds
  obtain ⟨p, hp, hreg, hrat, hcontains⟩ := polyhedronOf_contains hw hexact
  have hiff : ∀ u, (∀ c ∈ cs, c.Admits (c.expr.homogeneous.denote u))
      ↔ ∀ d ∈ ds, d.requirement.Allows (d.effective.denote u) := fun u =>
    (forall_mem_iff_of_forall₂ hall fun d c h => ((h.1.stored h.2).2 u).symm).symm
  refine ⟨p, hp, hreg, hrat, fun u => by rw [hcontains, hiff], fun hnormal u => ?_⟩
  rw [hcontains, hiff]
  refine and_congr_right fun _ => forall₂_congr fun d hd => ?_
  exact (hnormal d hd).demands_iff (hvalue d hd) u

end Polyhedral

namespace Recipe

/-- Three weighed flour, at most five sugar, and butter without bounds. -/
def lower : List Extended := [.finite 3, .finite 0, .negInf]

def upper : List Extended := [.finite 3, .finite 5, .posInf]

/-- A parameter of the recipe. -/
def part (i : ℕ) (name : String) : Parameter Extended :=
  ⟨0, i, .text name, lower.getD i 0, upper.getD i 0⟩

/-- Sugar and butter are at most six together, which is compared after taking off six, there is one
more sugar than flour, and twice the butter lies between two and four. -/
def declarations : List Declaration :=
  [.ofParameters ⟨[(part 1 "sugar", .finite 1), (part 2 "butter", .finite 1)], .finite (-6)⟩
      (.compared .le),
    .ofParameters ⟨[(part 0 "flour", .finite 1), (part 1 "sugar", .finite (-1))], .finite 1⟩
      (.compared .eq),
    .ofDecisions ⟨[], ⟨[(part 2 "butter", .finite 2)], .finite 0⟩⟩
      (.bounded (.real (.finite 2)) (.real (.finite 4)))]

theorem ordered : ∀ i < 3, Polyhedral.Ordered (lower.getD i 0) (upper.getD i 0) := by
  intro i hi
  interval_cases i
  · exact ⟨.inr rfl, .inr rfl, rfl⟩
  · exact ⟨.inr rfl, .inr rfl, rfl⟩
  · exact ⟨.inl rfl, .inl rfl, rfl⟩

theorem exact_declarations : ∀ d ∈ declarations, d.Exact 3 := by
  simp only [declarations, List.forall_mem_cons]
  refine ⟨?_, ?_, ?_, nofun⟩
  · exact Declaration.exact_of_distinct rfl trivial (by decide) (by decide) (by decide +kernel)
  · exact Declaration.exact_of_distinct rfl trivial (by decide) (by decide) (by decide +kernel)
  · have hknown : (Requirement.bounded (.real (.finite 2)) (.real (.finite 4))).Known :=
      ⟨nofun, nofun⟩
    exact Declaration.exact_of_distinct rfl hknown (by decide) (by decide) (by decide +kernel)

theorem withinBounds_iff {u : ℕ → ℚ} :
    Polyhedral.WithinBounds 3 lower upper u ↔ u 0 = 3 ∧ 0 ≤ u 1 ∧ u 1 ≤ 5 := by
  have hsplit : Polyhedral.WithinBounds 3 lower upper u ↔ Between (.finite 3) (.finite 3) (u 0)
      ∧ Between (.finite 0) (.finite 5) (u 1) := by
    refine ⟨fun h => ⟨h 0 (by decide), h 1 (by decide)⟩, ?_⟩
    rintro ⟨hflour, hsugar⟩ i hi
    interval_cases i
    exacts [hflour, hsugar, ⟨rfl, rfl⟩]
  simp only [hsplit, Between, Extended.le_finite, decide_eq_true_eq]
  rw [← le_antisymm_iff, eq_comm]

/-- The polyhedron of the recipe. -/
theorem polyhedron_declares_recipe : ∃ s p,
    declarations.foldlM Declaration.addTo UncertaintySet.newPolyhedral = .ok s
    ∧ Polyhedral.polyhedronOf 3 lower upper s.setConstraints = .ok p
    ∧ ∀ u, p.Contains 3 u ↔ u 0 = 3 ∧ (0 ≤ u 1 ∧ u 1 ≤ 5) ∧ u 1 + u 2 ≤ 6 ∧ u 1 = u 0 + 1
      ∧ 2 ≤ 2 * u 2 ∧ 2 * u 2 ≤ 4 := by
  obtain ⟨s, hs⟩ : ∃ s, declarations.foldlM Declaration.addTo UncertaintySet.newPolyhedral = .ok s
    := ⟨_, rfl⟩
  obtain ⟨p, hp, -, -, -, hiff⟩ := Polyhedral.polyhedron_declares hs ordered exact_declarations
  refine ⟨s, p, hs, hp, fun u => (hiff ?_ u).trans ?_⟩
  · simp only [declarations, List.forall_mem_cons]
    exact ⟨rfl, rfl, rfl, nofun⟩
  · have hdemands : (∀ d ∈ declarations, d.Demands u)
        ↔ u 1 + u 2 ≤ 6 ∧ 1 + (u 0 + -u 1) = 0 ∧ 2 ≤ 2 * u 2 ∧ 2 * u 2 ≤ 4 := by
      simp only [declarations, List.forall_mem_cons]
      simp [Declaration.Demands, Declaration.value, Declaration.requirement, Requirement.Allows,
        Sense.Relates, Uncertain.denote, Mixed.denote, part, Literal.toBound, Literal.toScalar,
        Between]
    rw [withinBounds_iff, hdemands]
    constructor
    · rintro ⟨⟨hflour, hsugar⟩, hsum, hmore, hbutter⟩
      exact ⟨hflour, hsugar, hsum, by linarith, hbutter⟩
    · rintro ⟨hflour, hsugar, hsum, hmore, hbutter⟩
      exact ⟨⟨hflour, hsugar⟩, hsum, by linarith, hbutter⟩

/-- One more than the sugar is at most two, as a given bound. -/
def sweetened : Declaration :=
  .ofParameters ⟨[(part 1 "sugar", .finite 1)], .finite 1⟩ (.bounded .absent (.real (.finite 2)))

/-- The polyhedron contains values that are not as declared, such as two of sugar. -/
theorem not_polyhedron_declares :
    ¬ ∀ (ds : List Declaration) (s : UncertaintySet Extended) (p : Polyhedron Extended),
      ds.foldlM Declaration.addTo UncertaintySet.newPolyhedral = .ok s → (∀ d ∈ ds, d.Exact 3) →
      Polyhedral.polyhedronOf 3 lower upper s.setConstraints = .ok p →
      ∀ u, p.Contains 3 u ↔ Polyhedral.WithinBounds 3 lower upper u ∧ ∀ d ∈ ds, d.Demands u := by
  intro h
  have hexact : sweetened.Exact 3 :=
    Declaration.exact_of_distinct rfl ⟨nofun, nofun⟩ (by decide) (by decide) (by decide +kernel)
  let stored : SetConstraint Extended := ⟨sweetened.expr, .negInf, .finite 2⟩
  have hstored : Polyhedral.IsExact 3 stored :=
    ⟨⟨.inl rfl, .inr rfl⟩, hexact.collected, hexact.index_lt⟩
  let u : ℕ → ℚ := fun i => if i = 1 then 2 else 3
  have hu : Polyhedral.WithinBounds 3 lower upper u := withinBounds_iff.mpr (by norm_num [u])
  have hsugar : ∀ c, (⟨[(part 1 "sugar", .finite 1)], c⟩ : Uncertain Extended).denote u
      = c.rat + 2 := by
    intro c
    simp [Uncertain.denote, part, u]
  have hadmits : stored.Admits (stored.expr.homogeneous.denote u) :=
    ⟨rfl, by simp [stored, sweetened, Declaration.expr, Uncertain.homogeneous, hsugar]⟩
  obtain ⟨p, hp, -, -, hcontains⟩ := Polyhedral.polyhedronOf_contains hu
    (List.forall_mem_singleton.mpr hstored)
  have hin : p.Contains 3 u := (hcontains u).mpr ⟨hu, List.forall_mem_singleton.mpr hadmits⟩
  have hdemands := ((h [sweetened] _ p rfl (List.forall_mem_singleton.mpr hexact) hp u).mp hin).2
  -- three is not at most two
  obtain ⟨l, t, -, ht, -, hle⟩ := hdemands sweetened (List.mem_singleton.mpr rfl) fun _ => 0
  obtain rfl := Except.ok.inj ht
  simp only [sweetened, Declaration.value, hsugar, Extended.le_finite, decide_eq_true_eq] at hle
  norm_num at hle

end Recipe

end RobustOpt
