import RobustOpt.Operand.Arithmetic
import RobustOpt.Proofs.Action
import RobustOpt.Proofs.Affine

/-!
# What operands denote

An expression in parameters is a function of the parameter values `u`, indexed by the positions of
the parameters. An expression in decision variables is a function of `u` and of a point `x` that
gives each decision variable the value of its column. Numbers denote themselves.

## Main definitions

* `Uncertain.denote`, `Mixed.denote`, `Operand.denote`: the functions.
* `Operand.Exact`: the operands without special values.
* `Operand.Denotes`: an exact operand and the function it denotes.

## Main statements

* `Uncertain.mul_spec`, `Mixed.mulUncertain_spec`: products denote products.
* `Operand.Denotes.term_or_number`: an operand with a denotation is an expression or a number.
* `Operand.Denotes.toMixed`: reading an operand as an expression keeps its denotation.
-/

namespace RobustOpt

/-! ## Expressions in parameters -/

namespace Uncertain

/-- Whether the constant and all coefficients are finite. -/
def Finite (e : Uncertain Extended) : Prop :=
  Scalar.isFinite e.constant = true ∧ ∀ t ∈ e.terms, Scalar.isFinite t.2 = true

/-- The value at parameter values indexed by position. -/
def denote (e : Uncertain Extended) (u : ℕ → ℚ) : ℚ :=
  e.constant.rat + (e.terms.map fun t => t.2.rat * u t.1.index).sum

variable {e f : Uncertain Extended} {c : Extended}

theorem finite_ofConstant : (ofConstant c).Finite ↔ Scalar.isFinite c = true := by
  simp [Finite, ofConstant]

@[simp] theorem denote_ofConstant (c : Extended) (u : ℕ → ℚ) :
    (ofConstant c).denote u = c.rat := by
  simp [denote, ofConstant]

theorem finite_ofParameter (p : Parameter Extended) : (ofParameter p).Finite := by
  simp [Finite, ofParameter]

@[simp] theorem denote_ofParameter (p : Parameter Extended) (u : ℕ → ℚ) :
    (ofParameter p).denote u = u p.index := by
  simp [denote, ofParameter]

theorem Finite.add (he : e.Finite) (hf : f.Finite) : (e.add f).Finite := by
  refine ⟨Extended.isFinite_add.mpr ⟨he.1, hf.1⟩, fun t ht => ?_⟩
  exact (List.mem_append.mp ht).elim (he.2 t) (hf.2 t)

theorem denote_add (he : e.Finite) (hf : f.Finite) (u : ℕ → ℚ) :
    (e.add f).denote u = e.denote u + f.denote u := by
  simp only [denote, add, Extended.rat_add he.1 hf.1, List.map_append, List.sum_append]
  ring

theorem Finite.scale (he : e.Finite) (hc : Scalar.isFinite c = true) : (e.scale c).Finite := by
  refine ⟨Extended.isFinite_mul.mpr ⟨he.1, hc⟩, ?_⟩
  simp only [Uncertain.scale, List.forall_mem_map]
  exact fun t ht => Extended.isFinite_mul.mpr ⟨he.2 t ht, hc⟩

theorem denote_scale (he : e.Finite) (hc : Scalar.isFinite c = true) (u : ℕ → ℚ) :
    (e.scale c).denote u = e.denote u * c.rat := by
  have hterms : (e.terms.map fun t => (t.2 * c).rat * u t.1.index)
      = e.terms.map fun t => t.2.rat * u t.1.index * c.rat :=
    List.map_congr_left fun t ht => by rw [Extended.rat_mul (he.2 t ht) hc]; ring
  simp only [denote, scale, List.map_map, Function.comp_def, hterms, Extended.rat_mul he.1 hc,
    List.sum_map_mul_right]
  ring

theorem denote_of_isConstant (h : e.isConstant = true) (u : ℕ → ℚ) :
    e.denote u = e.constant.rat := by
  simp [denote, List.isEmpty_iff.mp h]

theorem Finite.homogeneous (he : e.Finite) : e.homogeneous.Finite := ⟨rfl, he.2⟩

/-- The constant is what an expression loses when it is made homogeneous. -/
theorem denote_eq_homogeneous (e : Uncertain Extended) (u : ℕ → ℚ) :
    e.denote u = e.homogeneous.denote u + e.constant.rat := by
  simp [denote, homogeneous, add_comm]

/-- A product scales one factor by the other one, which is constant. -/
theorem mul_spec {r : Uncertain Extended} (he : e.Finite) (hf : f.Finite)
    (h : e.mul f = .ok r) : r.Finite ∧ ∀ u, r.denote u = e.denote u * f.denote u := by
  unfold mul at h
  split_ifs at h with hec hfc
  · obtain rfl := Except.ok.inj h
    refine ⟨hf.scale he.1, fun u => ?_⟩
    rw [denote_scale hf he.1, denote_of_isConstant hec, mul_comm]
  · obtain rfl := Except.ok.inj h
    refine ⟨he.scale hf.1, fun u => ?_⟩
    rw [denote_scale he hf.1, denote_of_isConstant hfc]

end Uncertain

/-! ## Expressions in decision variables -/

namespace Mixed

/-- Whether the constant and all coefficients are finite. -/
def Finite (e : Mixed Extended) : Prop := e.constant.Finite ∧ ∀ t ∈ e.terms, t.2.Finite

/-- The value at parameter values and a point for the decision variables. -/
def denote (e : Mixed Extended) (u : ℕ → ℚ) (x : Point) : ℚ :=
  (e.terms.map fun t => t.2.denote u * x t.1.column).sum + e.constant.denote u

variable {e f : Mixed Extended} {c : Extended}

theorem finite_ofUncertain {e : Uncertain Extended} : (ofUncertain e).Finite ↔ e.Finite := by
  simp [Finite, ofUncertain]

@[simp] theorem denote_ofUncertain (e : Uncertain Extended) (u : ℕ → ℚ) (x : Point) :
    (ofUncertain e).denote u x = e.denote u := by
  simp [denote, ofUncertain]

theorem finite_ofCoefficient {d : Decision Extended} {e : Uncertain Extended} :
    (ofCoefficient d e).Finite ↔ e.Finite := by
  simp [Finite, ofCoefficient, Uncertain.finite_ofConstant]

@[simp] theorem denote_ofCoefficient (d : Decision Extended) (e : Uncertain Extended)
    (u : ℕ → ℚ) (x : Point) : (ofCoefficient d e).denote u x = e.denote u * x d.column := by
  simp [denote, ofCoefficient]

/-- A decision variable is itself with coefficient one. -/
theorem ofDecision_eq (d : Decision Extended) : ofDecision d = ofCoefficient d (.ofConstant 1) :=
  rfl

theorem finite_ofDecision (d : Decision Extended) : (ofDecision d).Finite := by
  rw [ofDecision_eq, finite_ofCoefficient, Uncertain.finite_ofConstant]
  rfl

@[simp] theorem denote_ofDecision (d : Decision Extended) (u : ℕ → ℚ) (x : Point) :
    (ofDecision d).denote u x = x d.column := by
  simp [ofDecision_eq]

theorem Finite.add (he : e.Finite) (hf : f.Finite) : (e.add f).Finite := by
  refine ⟨he.1.add hf.1, fun t ht => ?_⟩
  exact (List.mem_append.mp ht).elim (he.2 t) (hf.2 t)

theorem denote_add (he : e.Finite) (hf : f.Finite) (u : ℕ → ℚ) (x : Point) :
    (e.add f).denote u x = e.denote u x + f.denote u x := by
  simp only [denote, add, Uncertain.denote_add he.1 hf.1, List.map_append, List.sum_append]
  ring

theorem Finite.scale (he : e.Finite) (hc : Scalar.isFinite c = true) : (e.scale c).Finite := by
  refine ⟨he.1.scale hc, ?_⟩
  simp only [Mixed.scale, List.forall_mem_map]
  exact fun t ht => (he.2 t ht).scale hc

theorem denote_scale (he : e.Finite) (hc : Scalar.isFinite c = true) (u : ℕ → ℚ) (x : Point) :
    (e.scale c).denote u x = e.denote u x * c.rat := by
  have hterms : (e.terms.map fun t => (t.2.scale c).denote u * x t.1.column)
      = e.terms.map fun t => t.2.denote u * x t.1.column * c.rat :=
    List.map_congr_left fun t ht => by rw [Uncertain.denote_scale (he.2 t ht) hc]; ring
  simp only [denote, scale, List.map_map, Function.comp_def, hterms,
    Uncertain.denote_scale he.1 hc, List.sum_map_mul_right]
  ring

/-- Multiplying every coefficient multiplies the sum of the terms. -/
theorem mulTerms_spec {f : Uncertain Extended} (hf : f.Finite)
    {l ts : List (Decision Extended × Uncertain Extended)} (hl : ∀ t ∈ l, t.2.Finite)
    (h : l.mapM (fun t => do return (t.1, ← t.2.mul f)) = .ok ts) :
    (∀ t ∈ ts, t.2.Finite) ∧ ∀ (u : ℕ → ℚ) (x : Point),
      (ts.map fun t => t.2.denote u * x t.1.column).sum
        = (l.map fun t => t.2.denote u * x t.1.column).sum * f.denote u := by
  induction mapM_eq_ok.mp h with
  | nil => simp
  | cons ht hrest ih =>
    obtain ⟨g, hg, hs⟩ := bind_eq_ok.mp ht
    obtain rfl := pure_eq_ok.mp hs
    obtain ⟨hgf, hgd⟩ := Uncertain.mul_spec (hl _ (by simp)) hf hg
    obtain ⟨hfin, hsum⟩ := ih (fun t ht => hl t (by simp [ht])) (mapM_eq_ok.mpr hrest)
    refine ⟨List.forall_mem_cons.mpr ⟨hgf, hfin⟩, fun u x => ?_⟩
    rw [List.map_cons, List.sum_cons, hsum, hgd, List.map_cons, List.sum_cons]
    ring

/-- A product with an expression in parameters multiplies every coefficient and the constant. -/
theorem mulUncertain_spec {f : Uncertain Extended} {r : Mixed Extended} (he : e.Finite)
    (hf : f.Finite) (h : e.mulUncertain f = .ok r) :
    r.Finite ∧ ∀ u x, r.denote u x = e.denote u x * f.denote u := by
  unfold mulUncertain at h
  split_ifs at h
  · obtain ⟨_, hrefused, -⟩ := bind_eq_ok.mp h
    exact (throw_ne_ok.mp hrefused).elim
  · obtain ⟨-, -, h⟩ := bind_eq_ok.mp h
    obtain ⟨ts, hts, h⟩ := bind_eq_ok.mp h
    obtain ⟨k, hk, h⟩ := bind_eq_ok.mp h
    obtain rfl := pure_eq_ok.mp h
    obtain ⟨hkf, hkd⟩ := Uncertain.mul_spec he.1 hf hk
    obtain ⟨hfin, hsum⟩ := mulTerms_spec hf he.2 hts
    refine ⟨⟨hkf, hfin⟩, fun u x => ?_⟩
    simp only [denote, hsum, hkd]
    ring

end Mixed

/-! ## Numbers -/

namespace Literal

/-- The literal is the rational number `q`. -/
inductive IsRational : Literal Extended → ℚ → Prop
  | integer (i : ℤ) : IsRational (.integer i) i
  | real (q : ℚ) : IsRational (.real (.finite q)) q

variable {v w r : Literal Extended} {p q : ℚ}

theorem IsRational.toScalar {c : Extended} (h : v.IsRational q) (hc : v.toScalar = .ok c) :
    c = .finite q := by
  cases h with
  | integer i =>
    simp only [Literal.toScalar] at hc
    split_ifs at hc
    exact (Except.ok.inj hc).symm
  | real q => exact (Except.ok.inj hc).symm

theorem IsRational.isZero (h : v.IsRational q) : v.isZero = decide (q = 0) := by
  cases h <;> simp [Literal.isZero, same, numeric?, Extended.ofScalar, Extended.eq]

end Literal

/-! ## Operands -/

namespace Operand

/-- A number, a symbol or an expression, without special values. -/
def Exact : Operand Extended → Prop
  | parameter _ | decision _ => True
  | uncertain e => e.Finite
  | mixed e => e.Finite
  | v => ∃ n q, v.number? = some n ∧ n.IsRational q

/-- The value at parameter values and a point. -/
def denote (v : Operand Extended) (u : ℕ → ℚ) (x : Point) : ℚ :=
  match v with
  | parameter p => u p.index
  | decision d => x d.column
  | uncertain e => e.denote u
  | mixed e => e.denote u x
  | v =>
    match v.number? with
    | some (.integer i) => i
    | some (.real c) => c.rat
    | _ => 0

/-- The operand is exact and has the value `f u x` everywhere. -/
structure Denotes (v : Operand Extended) (f : (ℕ → ℚ) → Point → ℚ) : Prop where
  exact : v.Exact
  value : ∀ u x, v.denote u x = f u x

theorem Exact.denotes {v : Operand Extended} (h : v.Exact) : v.Denotes v.denote :=
  ⟨h, fun _ _ => rfl⟩

variable {v w : Operand Extended} {f g : (ℕ → ℚ) → Point → ℚ}

theorem denotes_uncertain {e : Uncertain Extended} :
    (uncertain e).Denotes f ↔ e.Finite ∧ ∀ u x, e.denote u = f u x :=
  ⟨fun h => ⟨h.exact, h.value⟩, fun h => ⟨h.1, h.2⟩⟩

theorem denotes_mixed {e : Mixed Extended} :
    (mixed e).Denotes f ↔ e.Finite ∧ ∀ u x, e.denote u x = f u x :=
  ⟨fun h => ⟨h.exact, h.value⟩, fun h => ⟨h.1, h.2⟩⟩

theorem denotes_literal {n : Literal Extended} {q : ℚ} (h : n.IsRational q) :
    (literal n).Denotes fun _ _ => q := by
  cases h with
  | integer i => exact ⟨⟨_, _, rfl, .integer i⟩, fun _ _ => rfl⟩
  | real q => exact ⟨⟨_, _, rfl, .real q⟩, fun _ _ => rfl⟩

/-- An operand that counts as a number is no expression, and is one as a literal, too. -/
theorem of_number? {n : Literal Extended} (h : v.number? = some n) :
    v.term? = none ∧ v.plain? = some n ∧ v.isAffine = false := by
  cases v with
  | literal l => cases l <;> simp_all [number?, term?, plain?, isAffine]
  | array data => exact ⟨rfl, h, rfl⟩
  | _ => simp [number?] at h

/-- An operand with a denotation is an expression with this denotation, or a number. -/
theorem Denotes.term_or_number (h : v.Denotes f) :
    (∃ t, v.term? = some t ∧ v.number? = none ∧ t.toOperand.Denotes f)
      ∨ ∃ n q, v.number? = some n ∧ n.IsRational q ∧ ∀ u x, f u x = q := by
  cases v with
  | parameter p =>
    refine .inl ⟨_, rfl, rfl, denotes_uncertain.mpr ⟨Uncertain.finite_ofParameter p, fun u x => ?_⟩⟩
    rw [Uncertain.denote_ofParameter, ← h.value]
    rfl
  | decision d => exact .inl ⟨_, rfl, rfl, h⟩
  | uncertain e => exact .inl ⟨_, rfl, rfl, h⟩
  | mixed e => exact .inl ⟨_, rfl, rfl, h⟩
  | literal _ | array _ | list _ | setConstraint _ | uncertainConstraint _ | affine _ | linear _
  | other _ =>
    obtain ⟨n, q, hn, hq⟩ := h.exact
    refine .inr ⟨n, q, hn, hq, fun u x => ?_⟩
    rw [← h.value]
    cases hq <;> simp [denote, hn]

/-- Reading an operand as an expression in parameters keeps its denotation. -/
theorem Denotes.toUncertain {e : Uncertain Extended} (h : v.Denotes f)
    (he : v.toUncertain = .ok e) : (uncertain e).Denotes f := by
  obtain ⟨t, ht, hn, hd⟩ | ⟨n, q, hn, hq, hf⟩ := h.term_or_number
  · unfold Operand.toUncertain at he
    rw [hn] at he
    cases v with
    | parameter p => cases ht; cases he; exact hd
    | uncertain e => cases he; exact h
    | _ => cases he
  · have hcast : (do return Uncertain.ofConstant (← n.toScalar)) = Except.ok e := by
      unfold Operand.toUncertain at he
      rw [hn] at he
      cases v with
      | uncertain _ | parameter _ => cases hn
      | _ => exact he
    obtain ⟨c, hc, hr⟩ := bind_eq_ok.mp hcast
    obtain rfl := pure_eq_ok.mp hr
    obtain rfl := hq.toScalar hc
    exact denotes_uncertain.mpr ⟨Uncertain.finite_ofConstant.mpr rfl, fun u x => by simp [hf]⟩

/-- Reading an operand as an expression in decision variables keeps its denotation. -/
theorem Denotes.toMixed {e : Mixed Extended} (h : v.Denotes f) (he : v.toMixed = .ok e) :
    (mixed e).Denotes f := by
  cases v with
  | mixed e => cases he; exact h
  | decision d =>
    cases he
    refine denotes_mixed.mpr ⟨Mixed.finite_ofDecision d, fun u x => ?_⟩
    rw [Mixed.denote_ofDecision, ← h.value]
    rfl
  | _ =>
    obtain ⟨k, hk, hr⟩ := bind_eq_ok.mp he
    obtain rfl := pure_eq_ok.mp hr
    obtain ⟨hfin, hval⟩ := denotes_uncertain.mp (h.toUncertain hk)
    refine denotes_mixed.mpr ⟨Mixed.finite_ofUncertain.mpr hfin, fun u x => ?_⟩
    rw [Mixed.denote_ofUncertain, hval u x]

end Operand

end RobustOpt
