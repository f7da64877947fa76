import RobustOpt.Proofs.Denotation

/-!
# Operators compute with denotations

Whenever an operator answers, the answer denotes what the operator says of the denotations of its
operands. The operators therefore compute the arithmetic value of every formula, whatever the
kinds of its operands and the order in which they meet.

## Main definitions

* `Formula`: the trees built with the operators.
* `Formula.evaluate`: the operand the operators compute.
* `Formula.value`: the arithmetic value.

## Main statements

* `Term.add_spec`, `Term.scale_spec`, `Term.mul_spec`: the operations on expressions.
* `Operand.Denotes.neg`, `Operand.Denotes.add`, `Operand.Denotes.sub`, `Operand.Denotes.mul`,
  `Operand.Denotes.div`: the operators.
* `Formula.evaluate_denotes`: the operand computed for a formula denotes its value.
-/

namespace RobustOpt

variable {f g : (ℕ → ℚ) → Point → ℚ}

/-! ## Literals -/

namespace Literal

variable {a b r : Literal Extended} {p q : ℚ}

theorem IsRational.asNumber (h : a.IsRational p) : a.asNumber = a := by
  cases h <;> rfl

theorem IsRational.isNumber (h : a.IsRational p) : a.isNumber = true := by
  cases h <;> rfl

theorem IsRational.neg (ha : a.IsRational p) (h : a.neg = .ok r) : r.IsRational (-p) := by
  cases ha with
  | integer i =>
    obtain rfl := Except.ok.inj h
    simpa using IsRational.integer (-i)
  | real p =>
    obtain rfl := Except.ok.inj h
    exact .real (-p)

/-- Scalars of rational literals are combined as rational numbers. -/
theorem IsRational.onScalars {op : Extended → Extended → Extended} {z : ℚ}
    (hop : op (.finite p) (.finite q) = .finite z) (ha : a.IsRational p) (hb : b.IsRational q)
    (h : (do return Literal.real (op (← a.toScalar) (← b.toScalar))) = Except.ok r) :
    r.IsRational z := by
  obtain ⟨c, hc, h⟩ := bind_eq_ok.mp h
  obtain ⟨d, hd, h⟩ := bind_eq_ok.mp h
  obtain rfl := pure_eq_ok.mp h
  rw [ha.toScalar hc, hb.toScalar hd, hop]
  exact .real z

/-- Combining whole numbers exactly and others as scalars computes one operation. -/
theorem IsRational.combine {onWhole : ℤ → ℤ → ℤ} {onScalars : Extended → Extended → Extended}
    {op : ℚ → ℚ → ℚ} (hwhole : ∀ i j : ℤ, (onWhole i j : ℚ) = op i j)
    (hscalars : ∀ p q, onScalars (.finite p) (.finite q) = .finite (op p q))
    (ha : a.IsRational p) (hb : b.IsRational q)
    (h : Literal.combine onWhole onScalars a b = .ok r) : r.IsRational (op p q) := by
  simp only [Literal.combine, ha.asNumber, hb.asNumber] at h
  cases ha with
  | integer i =>
    cases hb with
    | integer j =>
      obtain rfl := Except.ok.inj h
      rw [← hwhole]
      exact .integer _
    | real q => exact IsRational.onScalars (hscalars i q) (.integer i) (.real q) h
  | real p =>
    cases hb with
    | integer j => exact IsRational.onScalars (hscalars p j) (.real p) (.integer j) h
    | real q => exact IsRational.onScalars (hscalars p q) (.real p) (.real q) h

/-- A quotient that is answered has a nonzero divisor. -/
theorem IsRational.divide (ha : a.IsRational p) (hb : b.IsRational q)
    (h : a.divide b = .ok r) : r.IsRational (p / q) := by
  simp only [Literal.divide, ha.asNumber, ha.isNumber, hb.asNumber, hb.isNumber, hb.isZero,
    Bool.and_self, Bool.not_true, Bool.false_eq_true, if_false, decide_eq_true_eq] at h
  split_ifs at h with hq
  have hdiv : ∀ p : ℚ, Extended.finite p / .finite q = .finite (p / q) :=
    fun p => Extended.finite_div hq
  cases ha with
  | integer i =>
    cases hb with
    | integer j =>
      simp only [quotient] at h
      split_ifs at h
      obtain rfl := Except.ok.inj h
      exact .real _
    | real q => exact IsRational.onScalars (hdiv i) (.integer i) (.real q) h
  | real p =>
    cases hb with
    | integer j => exact IsRational.onScalars (hdiv p) (.real p) (.integer j) h
    | real q => exact IsRational.onScalars (hdiv p) (.real p) (.real q) h

end Literal

/-! ## Expressions -/

namespace Term

open Operand

variable {s t r : Term Extended} {v : Operand Extended}

theorem denotes_add {e k : Mixed Extended} (he : (Operand.mixed e).Denotes f)
    (hk : (Operand.mixed k).Denotes g) :
    (Operand.mixed (e.add k)).Denotes fun u x => f u x + g u x := by
  obtain ⟨hef, hev⟩ := denotes_mixed.mp he
  obtain ⟨hkf, hkv⟩ := denotes_mixed.mp hk
  exact denotes_mixed.mpr ⟨hef.add hkf, fun u x => by rw [Mixed.denote_add hef hkf, hev, hkv]⟩

/-- A term as an expression in decision variables. -/
def toMixed : Term Extended → Mixed Extended
  | uncertain e => .ofUncertain e
  | decision d => .ofDecision d
  | mixed e => e

theorem denotes_toMixed (ht : t.toOperand.Denotes f) : (Operand.mixed t.toMixed).Denotes f := by
  cases t with
  | uncertain e =>
    obtain ⟨hef, hev⟩ := denotes_uncertain.mp ht
    refine denotes_mixed.mpr ⟨Mixed.finite_ofUncertain.mpr hef, fun u x => ?_⟩
    rw [toMixed, Mixed.denote_ofUncertain, hev u x]
  | decision d =>
    refine denotes_mixed.mpr ⟨Mixed.finite_ofDecision d, fun u x => ?_⟩
    rw [toMixed, Mixed.denote_ofDecision, ← ht.value]
    rfl
  | mixed e => exact ht

/-- A sum is computed with decision variables if one of the operands has some. -/
theorem add_spec (ht : t.toOperand.Denotes f) (hv : v.Denotes g) (h : t.add v = .ok r) :
    r.toOperand.Denotes fun u x => f u x + g u x := by
  have hmixed : (do return mixed (t.toMixed.add (← v.toMixed))) = Except.ok r →
      r.toOperand.Denotes fun u x => f u x + g u x := by
    intro h
    obtain ⟨k, hk, h⟩ := bind_eq_ok.mp h
    obtain rfl := pure_eq_ok.mp h
    exact denotes_add (denotes_toMixed ht) (hv.toMixed hk)
  have huncertain : ∀ e, t = uncertain e →
      (do return uncertain (e.add (← v.toUncertain))) = Except.ok r →
      r.toOperand.Denotes fun u x => f u x + g u x := by
    rintro e rfl h
    obtain ⟨k, hk, h⟩ := bind_eq_ok.mp h
    obtain rfl := pure_eq_ok.mp h
    obtain ⟨hef, hev⟩ := denotes_uncertain.mp ht
    obtain ⟨hkf, hkv⟩ := denotes_uncertain.mp (hv.toUncertain hk)
    refine denotes_uncertain.mpr ⟨hef.add hkf, fun u x => ?_⟩
    rw [Uncertain.denote_add hef hkf, hev u x, hkv u x]
  cases t with
  | uncertain e =>
    cases v with
    | decision _ | mixed _ => exact hmixed h
    | _ => exact huncertain e rfl h
  | decision _ | mixed _ => exact hmixed h

theorem scale_spec {c : Extended} (hc : Scalar.isFinite c = true) (ht : t.toOperand.Denotes f) :
    (t.scale c).toOperand.Denotes fun u x => f u x * c.rat := by
  have hmixed : (Operand.mixed (t.toMixed.scale c)).Denotes fun u x => f u x * c.rat := by
    obtain ⟨hef, hev⟩ := denotes_mixed.mp (denotes_toMixed ht)
    exact denotes_mixed.mpr ⟨hef.scale hc, fun u x => by rw [Mixed.denote_scale hef hc, hev]⟩
  cases t with
  | uncertain e =>
    obtain ⟨hef, hev⟩ := denotes_uncertain.mp ht
    refine denotes_uncertain.mpr ⟨hef.scale hc, fun u x => ?_⟩
    rw [Uncertain.denote_scale hef hc, hev u x]
  | decision _ | mixed _ => exact hmixed

theorem neg_spec (ht : t.toOperand.Denotes f) :
    t.neg.toOperand.Denotes fun u x => -f u x := by
  have hneg : (-1 : Extended).rat = -1 := Extended.rat_neg rfl
  obtain ⟨hexact, hvalue⟩ := scale_spec (c := -1) rfl ht
  exact ⟨hexact, fun u x => by rw [neg, hvalue, hneg]; ring⟩

/-- A product multiplies the factor with decision variables by the one with parameters. -/
theorem mul_spec (hs : s.toOperand.Denotes f) (ht : t.toOperand.Denotes g)
    (h : s.mul t = .ok r) : r.toOperand.Denotes fun u x => f u x * g u x := by
  have hmixed : ∀ {m e} {f g : (ℕ → ℚ) → Point → ℚ}, (Operand.mixed m).Denotes f →
      (Operand.uncertain e).Denotes g → (do return mixed (← m.mulUncertain e)) = Except.ok r →
      r.toOperand.Denotes fun u x => f u x * g u x := by
    intro m e f g hm he h
    obtain ⟨k, hk, h⟩ := bind_eq_ok.mp h
    obtain rfl := pure_eq_ok.mp h
    obtain ⟨hmf, hmv⟩ := denotes_mixed.mp hm
    obtain ⟨hef, hev⟩ := denotes_uncertain.mp he
    obtain ⟨hkf, hkv⟩ := Mixed.mulUncertain_spec hmf hef hk
    exact denotes_mixed.mpr ⟨hkf, fun u x => by rw [hkv, hmv, hev u x]⟩
  cases s with
  | uncertain e =>
    obtain ⟨hef, hev⟩ := denotes_uncertain.mp hs
    cases t with
    | uncertain k =>
      obtain ⟨p, hp, h⟩ := bind_eq_ok.mp h
      obtain rfl := pure_eq_ok.mp h
      obtain ⟨hkf, hkv⟩ := denotes_uncertain.mp ht
      obtain ⟨hpf, hpv⟩ := Uncertain.mul_spec hef hkf hp
      exact denotes_uncertain.mpr ⟨hpf, fun u x => by rw [hpv, hev u x, hkv u x]⟩
    | decision d =>
      obtain rfl := Except.ok.inj h
      refine denotes_mixed.mpr ⟨Mixed.finite_ofCoefficient.mpr hef, fun u x => ?_⟩
      rw [Mixed.denote_ofCoefficient, hev u x, ← ht.value]
      rfl
    | mixed m =>
      -- the factors change places
      obtain ⟨hexact, hvalue⟩ := hmixed ht hs h
      exact ⟨hexact, fun u x => by rw [hvalue, mul_comm]⟩
  | decision d =>
    cases t with
    | uncertain k => exact hmixed (denotes_toMixed hs) ht h
    | decision _ | mixed _ => cases h
  | mixed m =>
    cases t with
    | uncertain k => exact hmixed hs ht h
    | decision _ | mixed _ => cases h

end Term

/-! ## Operators -/

namespace Operand

variable {v w r : Operand Extended}

theorem Denotes.congr {f' : (ℕ → ℚ) → Point → ℚ} (h : v.Denotes f)
    (hf : ∀ u x, f u x = f' u x) : v.Denotes f' :=
  ⟨h.exact, fun u x => (h.value u x).trans (hf u x)⟩

theorem Denotes.neg (hv : v.Denotes f) (h : v.neg = .ok r) :
    r.Denotes fun u x => -f u x := by
  obtain ⟨t, ht, -, htd⟩ | ⟨n, p, hn, hp, hf⟩ := hv.term_or_number
  · simp only [Operand.neg, ht] at h
    obtain rfl := Except.ok.inj h
    exact Term.neg_spec htd
  · obtain ⟨hterm, hplain, haffine⟩ := of_number? hn
    have h : (do return literal (← n.neg)) = Except.ok r := by
      simp only [Operand.neg, hterm, hplain] at h
      cases v with
      | affine e => cases hn
      | _ => exact h
    obtain ⟨m, hm, h⟩ := bind_eq_ok.mp h
    obtain rfl := pure_eq_ok.mp h
    exact (denotes_literal (hp.neg hm)).congr fun u x => by rw [hf]

/-- Operands that count as numbers are combined as literals. -/
theorem combinePlain_spec {onAffine : Affine Extended → Affine Extended → Affine Extended}
    {onLiterals : Literal Extended → Literal Extended → Except (Fault Extended) (Literal Extended)}
    (op : ℚ → ℚ → ℚ) {a b : Literal Extended} {p q : ℚ}
    (hop : ∀ {c}, onLiterals a b = .ok c → c.IsRational (op p q)) (ha : v.number? = some a)
    (hb : w.number? = some b) (h : combinePlain onAffine onLiterals v w = .ok r) :
    r.Denotes fun _ _ => op p q := by
  obtain ⟨-, hva, hvaff⟩ := of_number? ha
  obtain ⟨-, hwb, hwaff⟩ := of_number? hb
  simp only [combinePlain, hvaff, hwaff, Bool.or_self, Bool.false_eq_true, if_false, hva, hwb] at h
  obtain ⟨c, hc, h⟩ := bind_eq_ok.mp h
  obtain rfl := pure_eq_ok.mp h
  exact denotes_literal (hop hc)

theorem Denotes.add (hv : v.Denotes f) (hw : w.Denotes g) (h : v.add w = .ok r) :
    r.Denotes fun u x => f u x + g u x := by
  obtain ⟨s, hs, -, hsd⟩ | ⟨a, p, ha, hp, hf⟩ := hv.term_or_number
  · simp only [Operand.add, hs] at h
    obtain ⟨t, ht, h⟩ := bind_eq_ok.mp h
    obtain rfl := pure_eq_ok.mp h
    exact Term.add_spec hsd hw ht
  · obtain ⟨hterm, -, haffine⟩ := of_number? ha
    obtain ⟨t, ht, -, htd⟩ | ⟨b, q, hb, hq, hg⟩ := hw.term_or_number
    · simp only [Operand.add, hterm, ht, haffine, Bool.false_eq_true, if_false] at h
      obtain ⟨k, hk, h⟩ := bind_eq_ok.mp h
      obtain rfl := pure_eq_ok.mp h
      exact (Term.add_spec htd hv hk).congr fun u x => add_comm _ _
    · simp only [Operand.add, hterm, (of_number? hb).1] at h
      refine (combinePlain_spec (· + ·) (fun hc => ?_) ha hb h).congr fun u x => by
        rw [hf, hg]
      exact hp.combine (by simp) (by simp) hq hc

theorem Denotes.sub (hv : v.Denotes f) (hw : w.Denotes g) (h : v.sub w = .ok r) :
    r.Denotes fun u x => f u x - g u x := by
  obtain ⟨s, hs, -, hsd⟩ | ⟨a, p, ha, hp, hf⟩ := hv.term_or_number
  · simp only [Operand.sub, hs] at h
    obtain ⟨k, hk, h⟩ := bind_eq_ok.mp h
    obtain ⟨t, ht, h⟩ := bind_eq_ok.mp h
    obtain rfl := pure_eq_ok.mp h
    exact (Term.add_spec hsd (hw.neg hk) ht).congr fun u x => (sub_eq_add_neg _ _).symm
  · obtain ⟨hterm, -, haffine⟩ := of_number? ha
    obtain ⟨t, ht, -, htd⟩ | ⟨b, q, hb, hq, hg⟩ := hw.term_or_number
    · simp only [Operand.sub, hterm, ht, haffine, Bool.false_eq_true, if_false] at h
      obtain ⟨k, hk, h⟩ := bind_eq_ok.mp h
      obtain rfl := pure_eq_ok.mp h
      exact (Term.add_spec (Term.neg_spec htd) hv hk).congr fun u x => neg_add_eq_sub _ _
    · simp only [Operand.sub, hterm, (of_number? hb).1] at h
      refine (combinePlain_spec (· - ·) (fun hc => ?_) ha hb h).congr fun u x => by
        rw [hf, hg]
      exact hp.combine (by simp) (by simp) hq hc

/-- The product of an expression and a number. -/
theorem scaleBy_spec {t : Term Extended} {n : Literal Extended} {q : ℚ}
    (ht : t.toOperand.Denotes f) (hn : w.number? = some n) (hq : n.IsRational q)
    (h : scaleBy t w = .ok r) : r.Denotes fun u x => f u x * q := by
  simp only [scaleBy, hn] at h
  obtain ⟨c, hc, h⟩ := bind_eq_ok.mp h
  obtain rfl := pure_eq_ok.mp h
  obtain rfl := hq.toScalar hc
  exact Term.scale_spec rfl ht

theorem Denotes.mul (hv : v.Denotes f) (hw : w.Denotes g) (h : v.mul w = .ok r) :
    r.Denotes fun u x => f u x * g u x := by
  obtain ⟨s, hs, -, hsd⟩ | ⟨a, p, ha, hp, hf⟩ := hv.term_or_number
  · obtain ⟨t, ht, -, htd⟩ | ⟨b, q, hb, hq, hg⟩ := hw.term_or_number
    · simp only [Operand.mul, hs, ht] at h
      obtain ⟨k, hk, h⟩ := bind_eq_ok.mp h
      obtain rfl := pure_eq_ok.mp h
      exact Term.mul_spec hsd htd hk
    · simp only [Operand.mul, hs, (of_number? hb).1] at h
      exact (scaleBy_spec hsd hb hq h).congr fun u x => by rw [hg]
  · obtain ⟨hterm, -, haffine⟩ := of_number? ha
    obtain ⟨t, ht, -, htd⟩ | ⟨b, q, hb, hq, hg⟩ := hw.term_or_number
    · simp only [Operand.mul, hterm, ht] at h
      exact (scaleBy_spec htd ha hp h).congr fun u x => by rw [hf, mul_comm]
    · simp only [Operand.mul, hterm, (of_number? hb).1, haffine, (of_number? hb).2.2,
        Bool.or_self, Bool.false_eq_true, if_false] at h
      refine (combinePlain_spec (· * ·) (fun hc => ?_) ha hb h).congr fun u x => by
        rw [hf, hg]
      exact hp.combine (by simp) (by simp) hq hc

/-- Division by a number that is not zero; no other divisor is taken. -/
theorem Denotes.div (hv : v.Denotes f) (hw : w.Denotes g) (h : v.div w = .ok r) :
    r.Denotes fun u x => f u x / g u x := by
  obtain ⟨s, hs, -, hsd⟩ | ⟨a, p, ha, hp, hf⟩ := hv.term_or_number
  · simp only [Operand.div, hs] at h
    obtain ⟨t, ht, hnum, htd⟩ | ⟨b, q, hb, hq, hg⟩ := hw.term_or_number
    · simp [hnum] at h
    · simp only [hb] at h
      obtain ⟨d, hd, h⟩ := bind_eq_ok.mp h
      obtain rfl := hq.toScalar hd
      split_ifs at h with hzero
      · obtain ⟨_, hrefused, -⟩ := bind_eq_ok.mp h
        exact (throw_ne_ok.mp hrefused).elim
      · obtain rfl := pure_eq_ok.mp h
        have hq0 : q ≠ 0 := by simpa using hzero
        rw [Extended.one_eq, Extended.finite_div hq0]
        exact (Term.scale_spec rfl hsd).congr fun u x => by
          rw [hg, Extended.rat_finite, mul_one_div]
  · obtain ⟨hterm, hplain, haffine⟩ := of_number? ha
    obtain ⟨t, ht, -, htd⟩ | ⟨b, q, hb, hq, hg⟩ := hw.term_or_number
    · simp [Operand.div, hterm, ht] at h
    · obtain ⟨hwterm, hwplain, -⟩ := of_number? hb
      have h : (do return literal (← a.divide b)) = Except.ok r := by
        simp only [Operand.div, hterm, hwterm, Option.isSome_none, Bool.false_eq_true,
          if_false, hwplain] at h
        cases v with
        | affine e => cases ha
        | _ => simpa only [hplain] using h
      obtain ⟨c, hc, h⟩ := bind_eq_ok.mp h
      obtain rfl := pure_eq_ok.mp h
      exact (denotes_literal (hp.divide hq hc)).congr fun u x => by rw [hf, hg]

end Operand

/-! ## Formulas -/

/-- A tree of operators over operands. -/
inductive Formula (α : Type) where
  | operand (v : Operand α)
  | neg (a : Formula α)
  | add (a b : Formula α)
  | sub (a b : Formula α)
  | mul (a b : Formula α)
  | div (a b : Formula α)

namespace Formula

/-- The operand the operators compute, left operands before right ones. -/
def evaluate {α : Type} [Scalar α] : Formula α → Except (Fault α) (Operand α)
  | operand v => .ok v
  | neg a => do (← a.evaluate).neg
  | add a b => do (← a.evaluate).add (← b.evaluate)
  | sub a b => do (← a.evaluate).sub (← b.evaluate)
  | mul a b => do (← a.evaluate).mul (← b.evaluate)
  | div a b => do (← a.evaluate).div (← b.evaluate)

/-- The arithmetic value at parameter values and a point. -/
def value (u : ℕ → ℚ) (x : Point) : Formula Extended → ℚ
  | operand v => v.denote u x
  | neg a => -a.value u x
  | add a b => a.value u x + b.value u x
  | sub a b => a.value u x - b.value u x
  | mul a b => a.value u x * b.value u x
  | div a b => a.value u x / b.value u x

/-- Whether all operands are numbers, symbols or expressions without special values. -/
def Exact : Formula Extended → Prop
  | operand v => v.Exact
  | neg a => a.Exact
  | add a b | sub a b | mul a b | div a b => a.Exact ∧ b.Exact

/-- Whatever the operators compute for a formula denotes the value of the formula. -/
theorem denotes_of_evaluate {a : Formula Extended} (ha : a.Exact) {v : Operand Extended}
    (h : a.evaluate = .ok v) : v.Denotes fun u x => a.value u x := by
  induction a generalizing v with
  | operand w =>
    obtain rfl := Except.ok.inj h
    exact Operand.Exact.denotes ha
  | neg a ih =>
    obtain ⟨v', hv', h⟩ := bind_eq_ok.mp h
    exact (ih ha hv').neg h
  | add a b iha ihb =>
    obtain ⟨v', hv', h⟩ := bind_eq_ok.mp h
    obtain ⟨w', hw', h⟩ := bind_eq_ok.mp h
    exact (iha ha.1 hv').add (ihb ha.2 hw') h
  | sub a b iha ihb =>
    obtain ⟨v', hv', h⟩ := bind_eq_ok.mp h
    obtain ⟨w', hw', h⟩ := bind_eq_ok.mp h
    exact (iha ha.1 hv').sub (ihb ha.2 hw') h
  | mul a b iha ihb =>
    obtain ⟨v', hv', h⟩ := bind_eq_ok.mp h
    obtain ⟨w', hw', h⟩ := bind_eq_ok.mp h
    exact (iha ha.1 hv').mul (ihb ha.2 hw') h
  | div a b iha ihb =>
    obtain ⟨v', hv', h⟩ := bind_eq_ok.mp h
    obtain ⟨w', hw', h⟩ := bind_eq_ok.mp h
    exact (iha ha.1 hv').div (ihb ha.2 hw') h

/-- The operators compute the arithmetic value of a formula. In particular sums and products do not
depend on the order of their operands, as long as both orders are taken. -/
theorem evaluate_denotes {a b : Formula Extended} (ha : a.Exact) (hb : b.Exact) :
    (∀ v, a.evaluate = .ok v → v.Exact ∧ ∀ u x, v.denote u x = a.value u x)
      ∧ (∀ v w, (add a b).evaluate = .ok v → (add b a).evaluate = .ok w →
        ∀ u x, v.denote u x = w.denote u x)
      ∧ ∀ v w, (mul a b).evaluate = .ok v → (mul b a).evaluate = .ok w →
        ∀ u x, v.denote u x = w.denote u x := by
  refine ⟨fun v h => ?_, fun v w hv hw u x => ?_, fun v w hv hw u x => ?_⟩
  · obtain ⟨hexact, hvalue⟩ := denotes_of_evaluate ha h
    exact ⟨hexact, hvalue⟩
  · calc v.denote u x
        = a.value u x + b.value u x := (denotes_of_evaluate (a := add a b) ⟨ha, hb⟩ hv).value u x
      _ = b.value u x + a.value u x := add_comm _ _
      _ = w.denote u x := ((denotes_of_evaluate (a := add b a) ⟨hb, ha⟩ hw).value u x).symm
  · calc v.denote u x
        = a.value u x * b.value u x := (denotes_of_evaluate (a := mul a b) ⟨ha, hb⟩ hv).value u x
      _ = b.value u x * a.value u x := mul_comm _ _
      _ = w.denote u x := ((denotes_of_evaluate (a := mul b a) ⟨hb, ha⟩ hw).value u x).symm

/-- The number `q` as a formula. -/
def number (q : ℚ) : Formula Extended := operand (.literal (.real (.finite q)))

/-- A quarter of what a decision leaves of two. -/
def share : Formula Extended :=
  div (sub (number 2) (operand (.decision
    ⟨0, 0, "x", .negInf, .posInf, ⟨0, none, .decision 0, false, false⟩⟩))) (number 4)

/-- Three less twice a parameter. -/
def rate : Formula Extended :=
  sub (number 3) (mul (operand (.parameter ⟨0, 0, .text "u", .finite 0, .finite 1⟩)) (number 2))

theorem share_exact : share.Exact := ⟨⟨⟨_, _, rfl, .real 2⟩, trivial⟩, _, _, rfl, .real 4⟩

theorem rate_exact : rate.Exact := ⟨⟨_, _, rfl, .real 3⟩, trivial, _, _, rfl, .real 2⟩

/-- Both orders of the sum and of the product of the two formulas are taken. -/
theorem share_rate_denotes :
    ∃ v p q r s, (mul share rate).evaluate = .ok p ∧ (mul rate share).evaluate = .ok q
      ∧ (add share rate).evaluate = .ok r ∧ (add rate share).evaluate = .ok s
      ∧ share.evaluate = .ok v ∧ (∀ u x, v.denote u x = share.value u x)
      ∧ (∀ u x, p.denote u x = q.denote u x) ∧ ∀ u x, r.denote u x = s.denote u x :=
  have h := evaluate_denotes share_exact rate_exact
  ⟨_, _, _, _, _, rfl, rfl, rfl, rfl, rfl, (h.1 _ rfl).2, h.2.2 _ _ rfl rfl, h.2.1 _ _ rfl rfl⟩

end Formula

end RobustOpt
