import RobustOpt.Proofs.Operators

/-!
# Products that are taken

The product of two expressions is affine unless both mention a decision variable or both mention a
parameter. Such products are refused, each time for the kinds of the factors. Some affine products
are refused as well: an expression in decision variables counts as one that mentions some, and if it
mentions a parameter it takes no constant expression either. Whether a product is taken does not
depend on the order of its factors.

## Main definitions

* `Term.mentionsDecision`, `Term.mentionsParameter`: what occurs in the stored terms.
* `Term.Nonlinear`: products that are not affine.
* `Term.Overlooks`: affine products that are refused.

## Main statements

* `Term.exists_mul_iff`: which products of expressions are taken.
* `Operand.mul_constant_spec`: multiplying by a constant expression and by its number.
* `Operand.mul_refused_iff`: which products of operands are refused.
-/

namespace RobustOpt

/-! ## Products of expressions -/

section Products

variable {α : Type} [Scalar α]

/-- A product of two expressions in parameters is taken if one of them is constant. -/
theorem Uncertain.exists_mul_iff {e f : Uncertain α} :
    (∃ r, e.mul f = .ok r) ↔ e.isConstant = true ∨ f.isConstant = true := by
  unfold Uncertain.mul
  split_ifs <;> simp_all

theorem Uncertain.category_of_mul {e f : Uncertain α} {c : Fault α} (h : e.mul f = .error c) :
    c.category = .type := by
  unfold Uncertain.mul at h
  split_ifs at h
  cases h
  rfl

omit [Scalar α] in
theorem Mixed.isCertain_iff {e : Mixed α} : e.isCertain = true ↔
    e.constant.isConstant = true ∧ ∀ t ∈ e.terms, t.2.isConstant = true := by
  simp [Mixed.isCertain]

/-- An expression in decision variables takes a factor in parameters if it mentions none itself. -/
theorem Mixed.exists_mulUncertain {e : Mixed α} (he : e.isCertain = true) (f : Uncertain α) :
    ∃ r, e.mulUncertain f = .ok r := by
  obtain ⟨hconstant, hterms⟩ := Mixed.isCertain_iff.mp he
  have htaken : ∀ g : Uncertain α, g.isConstant = true → ∃ r, g.mul f = .ok r :=
    fun g hg => Uncertain.exists_mul_iff.mpr (.inl hg)
  obtain ⟨k, hk⟩ := htaken _ hconstant
  obtain ⟨ts, hts, -⟩ := exists_mapM (R := fun _ _ => True) (l := e.terms)
    (f := fun t => do return (t.1, ← t.2.mul f)) fun t ht => by
      obtain ⟨r, hr⟩ := htaken _ (hterms t ht)
      exact ⟨(t.1, r), bind_eq_ok.mpr ⟨r, hr, rfl⟩, trivial⟩
  refine ⟨⟨ts, k⟩, ?_⟩
  rw [mulUncertain, he]
  exact bind_eq_ok.mpr ⟨ts, hts, bind_eq_ok.mpr ⟨k, hk, rfl⟩⟩

theorem Mixed.mulUncertain_of_not_isCertain {e : Mixed α} (he : e.isCertain = false)
    (f : Uncertain α) : e.mulUncertain f = .error .uncertainCoefficientProduct := by
  rw [mulUncertain, he]
  rfl

end Products

namespace Term

variable {α : Type}

/-- Whether a decision variable occurs in a stored term. -/
def mentionsDecision : Term α → Bool
  | uncertain _ => false
  | decision _ => true
  | mixed e => e.hasDecisions

/-- Whether a parameter occurs in a stored term. -/
def mentionsParameter : Term α → Bool
  | uncertain e => !e.isConstant
  | decision _ => false
  | mixed e => !e.isCertain

/-- Whether an expression is one in decision variables, be it without any. -/
def isOverDecisions : Term α → Bool
  | uncertain _ => false
  | decision _ | mixed _ => true

/-- The product is not affine in the decision variables or not affine in the parameters. -/
def Nonlinear (s t : Term α) : Prop :=
  s.mentionsDecision = true ∧ t.mentionsDecision = true
    ∨ s.mentionsParameter = true ∧ t.mentionsParameter = true

/-- The product is affine as `t` mentions no decision variable and not both mention a parameter,
which is overlooked: `t` passes for an expression that mentions decision variables, or the
parameters of `s`, an expression in decision variables, are held against it. -/
def Overlooks (s t : Term α) : Prop :=
  s.isOverDecisions = true ∧ t.mentionsDecision = false
    ∧ ¬ (s.mentionsParameter = true ∧ t.mentionsParameter = true)
    ∧ (t.isOverDecisions = true ∨ s.mentionsParameter = true)

/-- The product is refused. -/
def Refuses (s t : Term α) : Prop := s.Nonlinear t ∨ s.Overlooks t ∨ t.Overlooks s

variable {s t : Term α}

theorem refuses_comm : s.Refuses t ↔ t.Refuses s := by
  unfold Refuses Nonlinear
  tauto

theorem isOverDecisions_of_mentionsDecision (h : s.mentionsDecision = true) :
    s.isOverDecisions = true := by
  cases s with
  | uncertain e => cases h
  | decision | mixed => rfl

/-- A product is refused if both factors are expressions in decision variables, if both mention a
parameter, or if a single factor is and does both. -/
theorem refuses_iff : s.Refuses t ↔
    s.isOverDecisions = true ∧ t.isOverDecisions = true
      ∨ s.mentionsParameter = true ∧ t.mentionsParameter = true
      ∨ s.isOverDecisions = true ∧ s.mentionsParameter = true
      ∨ t.isOverDecisions = true ∧ t.mentionsParameter = true := by
  have hs := isOverDecisions_of_mentionsDecision (s := s)
  have ht := isOverDecisions_of_mentionsDecision (s := t)
  unfold Refuses Nonlinear Overlooks
  grind

variable [Scalar α]

/-- A factor in parameters is taken by an expression in decision variables, or refused, as that
mentions parameters or not. -/
theorem mulUncertain_cases (m : Mixed α) (f : Uncertain α) :
    (∃ r, (do return mixed (← m.mulUncertain f)) = Except.ok r
      ∧ (mixed m).mentionsParameter = false)
    ∨ ∃ c : Fault α, (do return mixed (← m.mulUncertain f)) = Except.error c ∧ c.category = .type
      ∧ (mixed m).mentionsParameter = true := by
  cases hm : m.isCertain with
  | true =>
    obtain ⟨r, hr⟩ := Mixed.exists_mulUncertain hm f
    exact .inl ⟨mixed r, bind_eq_ok.mpr ⟨r, hr, rfl⟩, by simp [mentionsParameter, hm]⟩
  | false =>
    have hr := Mixed.mulUncertain_of_not_isCertain hm f
    exact .inr ⟨_, bind_eq_error.mpr (.inl hr), rfl, by simp [mentionsParameter, hm]⟩

/-- A product of expressions is taken, or it is refused for the kinds of its factors. -/
theorem mul_cases (s t : Term α) : (∃ r, s.mul t = .ok r ∧ ¬ s.Refuses t)
    ∨ ∃ c, s.mul t = .error c ∧ c.category = .type ∧ s.Refuses t := by
  cases s with
  | uncertain e =>
    cases t with
    | uncertain f =>
      -- the only kinds of factors for which the coefficients of both are looked at
      cases hr : e.mul f with
      | ok r =>
        have := Uncertain.exists_mul_iff.mp ⟨r, hr⟩
        refine .inl ⟨uncertain r, bind_eq_ok.mpr ⟨r, hr, rfl⟩, ?_⟩
        grind [refuses_iff, isOverDecisions, mentionsParameter]
      | error c =>
        have : ¬ (e.isConstant = true ∨ f.isConstant = true) := by
          rw [← Uncertain.exists_mul_iff, hr]
          simp
        refine .inr ⟨c, bind_eq_error.mpr (.inl hr), Uncertain.category_of_mul hr, ?_⟩
        grind [refuses_iff, isOverDecisions, mentionsParameter]
    | decision d =>
      exact .inl ⟨_, rfl, by simp [refuses_iff, isOverDecisions, mentionsParameter]⟩
    | mixed m =>
      obtain ⟨r, hr, hm⟩ | ⟨c, hc, htype, hm⟩ := mulUncertain_cases m e
      · exact .inl ⟨r, hr, by simp [refuses_iff, isOverDecisions, hm]⟩
      · exact .inr ⟨c, hc, htype, by simp [refuses_iff, isOverDecisions, hm]⟩
  | decision d =>
    cases t with
    | uncertain f =>
      obtain ⟨r, hr, hm⟩ | ⟨c, hc, htype, hm⟩ := mulUncertain_cases (.ofDecision d) f
      · exact .inl ⟨r, hr, by simp [refuses_iff, isOverDecisions, mentionsParameter]⟩
      · cases hm
    | decision | mixed =>
      exact .inr ⟨_, rfl, rfl, by simp [refuses_iff, isOverDecisions]⟩
  | mixed m =>
    cases t with
    | uncertain f =>
      obtain ⟨r, hr, hm⟩ | ⟨c, hc, htype, hm⟩ := mulUncertain_cases m f
      · exact .inl ⟨r, hr, by simp [refuses_iff, isOverDecisions, hm]⟩
      · exact .inr ⟨c, hc, htype, by simp [refuses_iff, isOverDecisions, hm]⟩
    | decision | mixed =>
      exact .inr ⟨_, rfl, rfl, by simp [refuses_iff, isOverDecisions]⟩

theorem exists_mul_iff : (∃ r, s.mul t = .ok r) ↔ ¬ s.Refuses t := by
  rcases mul_cases s t with ⟨r, hr, h⟩ | ⟨c, hc, -, h⟩
  · exact iff_of_true ⟨r, hr⟩ h
  · simp [hc, h]

end Term

/-! ## Products of operands -/

namespace Operand

section Kinds

variable {α : Type} [Scalar α] {v w : Operand α} {s t : Term α}

theorem mul_eq_ok (hv : v.term? = some s) (hw : w.term? = some t) {r : Operand α} :
    v.mul w = .ok r ↔ ∃ k, s.mul t = .ok k ∧ k.toOperand = r := by
  simp only [mul, hv, hw, bind_eq_ok, pure_eq_ok]

theorem mul_eq_error (hv : v.term? = some s) (hw : w.term? = some t) {c : Fault α} :
    v.mul w = .error c ↔ s.mul t = .error c := by
  simp only [mul, hv, hw, bind_eq_error]
  cases s.mul t <;> simp [pure, Except.pure]

/-- A product of operands is taken where that of their expressions is. -/
theorem exists_mul_iff (hv : v.term? = some s) (hw : w.term? = some t) :
    (∃ r, v.mul w = .ok r) ↔ ¬ s.Refuses t := by
  simp only [mul_eq_ok hv hw]
  rw [← Term.exists_mul_iff]
  exact ⟨fun ⟨_, k, hk, _⟩ => ⟨k, hk⟩, fun ⟨k, hk⟩ => ⟨_, k, hk, rfl⟩⟩

end Kinds

variable {v w : Operand Extended} {s t : Term Extended}

/-- Multiplying by a constant expression is taken unless a mixed expression mentions parameters, in
either order, and denotes what multiplying by the number denotes. -/
theorem mul_constant_spec (hv : v.term? = some s) (hexact : v.Exact)
    (hs : s.isOverDecisions = false ∨ s.mentionsParameter = false) (c : ℚ) :
    ∃ p q r, v.mul (uncertain (.ofConstant (.finite c))) = .ok p
      ∧ (uncertain (.ofConstant (.finite c))).mul v = .ok q
      ∧ v.mul (literal (.real (.finite c))) = .ok r
      ∧ ∀ u x, p.denote u x = r.denote u x ∧ q.denote u x = r.denote u x := by
  let e : Uncertain Extended := .ofConstant (.finite c)
  have hconstant : (Term.uncertain e).isOverDecisions = false
      ∧ (Term.uncertain e).mentionsParameter = false := ⟨rfl, rfl⟩
  have hfree : ¬ s.Refuses (.uncertain e) := by grind [Term.refuses_iff]
  have hterm : (uncertain e).term? = some (.uncertain e) := rfl
  obtain ⟨p, hp⟩ := (exists_mul_iff hv hterm).mpr hfree
  obtain ⟨q, hq⟩ := (exists_mul_iff hterm hv).mpr (mt Term.refuses_comm.mp hfree)
  have hr : v.mul (literal (.real (.finite c))) = .ok (s.scale (.finite c)).toOperand := by
    have hnumber : (literal (.real (.finite c)) : Operand Extended).term? = none := rfl
    simp only [mul, hv, hnumber]
    rfl
  have he : (uncertain e).Denotes fun _ _ => c :=
    denotes_uncertain.mpr ⟨Uncertain.finite_ofConstant.mpr rfl, fun u _ => by simp [e]⟩
  have hn : (literal (.real (.finite c))).Denotes fun _ _ => c := denotes_literal (.real c)
  refine ⟨p, q, _, hp, hq, hr, fun u x => ?_⟩
  rw [(hexact.denotes.mul he hp).value, (he.mul hexact.denotes hq).value,
    (hexact.denotes.mul hn hr).value]
  exact ⟨rfl, mul_comm _ _⟩

/-- A product of two expressions is refused, as a fault of type, exactly if it is not affine or if
it is overlooked that it is. It is taken in both orders or in none. A constant expression acts as
its number on every expression that takes it. -/
theorem mul_refused_iff (hv : v.term? = some s) (hw : w.term? = some t) :
    ((∃ c, v.mul w = .error c ∧ c.category = .type)
        ↔ s.Nonlinear t ∨ s.Overlooks t ∨ t.Overlooks s)
      ∧ ((∃ r, v.mul w = .ok r) ↔ ¬ ∃ c, v.mul w = .error c ∧ c.category = .type)
      ∧ ((∃ r, v.mul w = .ok r) ↔ ∃ r, w.mul v = .ok r)
      ∧ (v.Exact → s.isOverDecisions = false ∨ s.mentionsParameter = false → ∀ c : ℚ,
        ∃ p q r, v.mul (uncertain (.ofConstant (.finite c))) = .ok p
          ∧ (uncertain (.ofConstant (.finite c))).mul v = .ok q
          ∧ v.mul (literal (.real (.finite c))) = .ok r
          ∧ ∀ u x, p.denote u x = r.denote u x ∧ q.denote u x = r.denote u x) := by
  have hrefused : (∃ c, v.mul w = .error c ∧ c.category = .type) ↔ s.Refuses t := by
    simp only [mul_eq_error hv hw]
    rcases Term.mul_cases s t with ⟨r, hr, h⟩ | ⟨c, hc, htype, h⟩
    · simp [hr, h]
    · exact iff_of_true ⟨c, hc, htype⟩ h
  refine ⟨hrefused, ?_, ?_, fun hexact hs c => mul_constant_spec hv hexact hs c⟩
  · rw [hrefused, exists_mul_iff hv hw]
  · rw [exists_mul_iff hv hw, exists_mul_iff hw hv, Term.refuses_comm]

end Operand

/-! ## Factors of each kind -/

namespace Tariff

def hours : Decision Extended :=
  ⟨0, 0, "x", .finite 0, .posInf, ⟨0, none, .decision 0, false, false⟩⟩

def rate : Parameter Extended := ⟨0, 0, .text "u", .finite 1, .finite 2⟩

/-- The rate for each hour. -/
def charge : Mixed Extended := .ofCoefficient hours (.ofParameter rate)

/-- The number two as an expression in parameters. -/
def double : Uncertain Extended := .ofConstant (.finite 2)

end Tariff

open Tariff in
/-- A charge takes neither hours nor a rate as a factor, in no order. Hours take the constant, and
are doubled by it. -/
theorem tariff_mul_refused :
    (∃ c, (Operand.mixed charge).mul (.parameter rate) = .error c ∧ c.category = .type)
    ∧ (¬ ∃ r, (Operand.decision hours).mul (.mixed charge) = .ok r)
    ∧ ∃ p r, (Operand.decision hours).mul (.uncertain double) = .ok p
      ∧ (Operand.decision hours).mul (.literal (.real (.finite 2))) = .ok r
      ∧ ∀ u x, p.denote u x = r.denote u x := by
  have hrate := Operand.mul_refused_iff (v := .mixed charge) (w := .parameter rate) rfl rfl
  have hhours := Operand.mul_refused_iff (v := .mixed charge) (w := .decision hours) rfl rfl
  obtain ⟨-, -, -, hconstant⟩ :=
    Operand.mul_refused_iff (v := .decision hours) (w := .decision hours) rfl rfl
  have hexact : (Operand.decision hours).Exact := trivial
  obtain ⟨p, q, r, hp, hq, hr, hsame⟩ := hconstant hexact (.inr rfl) 2
  refine ⟨hrate.1.mpr (.inl (.inr ⟨rfl, rfl⟩)), fun h => ?_, p, r, hp, hr, fun u x => (hsame u x).1⟩
  exact hhours.2.1.mp (hhours.2.2.1.mpr h) (hhours.1.mpr (.inl (.inl ⟨rfl, rfl⟩)))

open Tariff in
/-- Twice a charge is affine, and is refused if the two is an expression in parameters. -/
theorem not_mul_refused_iff_nonlinear :
    ¬ ∀ (v w : Operand Extended) (s t : Term Extended), v.term? = some s → w.term? = some t →
      ((∃ c, v.mul w = .error c ∧ c.category = .type) ↔ s.Nonlinear t) := by
  intro h
  have hrefused := (h (.uncertain double) (.mixed charge) _ _ rfl rfl).mp ⟨_, rfl, rfl⟩
  rcases hrefused with ⟨hdecision, -⟩ | ⟨hparameter, -⟩
  · cases hdecision
  · cases hparameter

end RobustOpt
