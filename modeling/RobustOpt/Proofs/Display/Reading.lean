import RobustOpt.Proofs.Display.Vocabulary

/-!
# Written forms read back

With identifiers for names, all different, and numerals that read back to their numbers, what is
read of a written form is the expression it was written for, up to coefficients that count as one or
minus one and constants that are not shown.

## Main definitions

* `Uncertain.monomials`: what is read of an expression in parameters.
* `Vocabulary.coefficientValue`, `Vocabulary.constantValue`: what the parts of an expression in
  decision variables stand for.

## Main statements

* `Uncertain.read_eq_monomials`: reading the written form of an expression in parameters.
* `Mixed.exists_read_term`: what is read of a term with a decision variable.
* `Vocabulary.Clear.read_render`: written forms read back.
-/

namespace RobustOpt

open Display

/-! ## What is read of expressions in parameters -/

namespace Uncertain

/-- The numbers that are written besides the terms: the constant if it is shown, and a zero that
stands for no terms. -/
def numbers (e : Uncertain Extended) : List ℚ :=
  if e.terms = [] then [e.constant.rat]
  else (if e.sorted = [] then [0] else []) ++ if e.ShowsConstant then [e.constant.rat] else []

/-- What is read of the written form. -/
def monomials (e : Uncertain Extended) : List Monomial :=
  e.sorted.map (fun t => .multiple (rounded t.2) t.1) ++ e.numbers.map .number

variable {e : Uncertain Extended}

theorem sorted_of_nil (h : e.terms = []) : e.sorted = [] := by
  simp [sorted, collect_eq, contributions, h, Accumulator.collected, Accumulator.touched]

theorem sum_numbers : e.numbers.sum = e.constant.rat ∨ e.numbers.sum = 0 ∧ ¬ e.ShowsConstant := by
  unfold numbers
  split_ifs <;> simp_all

theorem isFinite_of_mem_sorted (he : e.Finite) {i : ℕ} {c : Extended} (h : (i, c) ∈ e.sorted) :
    Scalar.isFinite c = true := by
  obtain ⟨-, rfl⟩ := touched_of_mem_sorted h
  have hts : ∀ t ∈ e.contributions, Scalar.isFinite t.2 = true := List.forall_mem_map.mpr he.2
  rw [Accumulator.sums_eq_total hts]
  rfl

variable {shown : Extended → String} {N : Numerals} {V : Vocabulary} (hV : V.Clear)
include hV

theorem named_of_covers (h : V.Covers e) : e.Named shown IsPlain := fun t ht => by
  have hid := hV.isIdentifier_parameter (h t ht)
  exact toList_asText hid shown ▸ hid.1

variable (shown N) in
theorem readPieces_termPieces (he : e.Finite) (h : V.Covers e)
    (inner : List Char → Option (List Monomial)) :
    V.readPieces N inner (e.termPieces shown N.write)
      = some (e.sorted.map fun t => .multiple (rounded t.2) t.1) := by
  refine Vocabulary.readPieces_map fun t ht => ?_
  obtain ⟨i, c⟩ := t
  obtain ⟨p, hp, hi, hname⟩ := exists_name_of_mem_sorted shown ht
  obtain ⟨q, rfl⟩ := Extended.isFinite_iff.mp (isFinite_of_mem_sorted he ht)
  have hid := hV.isIdentifier_parameter (h p hp)
  rw [toList_asText hid] at hname
  have hread := N.readPieces_multiplePiece inner hid (hV.symbol?_parameter (h p hp)) q
  rw [hname, hread, hi]
  simp [Monomial.scale, Monomial.multiple]

variable (shown N) in
/-- The terms and the numbers are read. -/
theorem readPieces_pieces (he : e.Finite) (h : V.Covers e)
    (inner : List Char → Option (List Monomial)) :
    V.readPieces N inner (e.pieces shown N.write) = some e.monomials := by
  obtain ⟨c, hc⟩ := Extended.isFinite_iff.mp he.1
  have hterms := readPieces_termPieces shown N hV he h inner
  have hnumber : V.readPieces N inner [numberPiece N.write e.constant]
      = some [.number e.constant.rat] := by
    rw [hc]
    exact Numerals.readPieces_numberPiece c
  rw [monomials, numbers]
  by_cases hnil : e.terms = []
  · rw [pieces_of_nil hnil, hnumber, if_pos hnil, sorted_of_nil hnil]
    rfl
  · have hsum : V.readPieces N inner (orZero (e.termPieces shown N.write))
        = some (e.sorted.map (fun t => .multiple (rounded t.2) t.1)
          ++ (if e.sorted = [] then [0] else []).map .number) := by
      by_cases hsorted : e.sorted = []
      · rw [termPieces, hsorted, List.map_nil, orZero_nil]
        exact Numerals.readPieces_zeroPiece
      · rw [orZero_of_ne_nil (by simpa [termPieces] using hsorted), if_neg hsorted, List.map_nil,
          List.append_nil]
        exact hterms
    rw [pieces_of_ne_nil hnil, if_neg hnil, List.map_append, ← List.append_assoc]
    refine Vocabulary.readPieces_append hsum ?_
    split_ifs
    · exact hnumber
    · rfl

variable (shown N) in
/-- Whatever nesting is allowed, the written form reads as the terms and the numbers. -/
theorem read_eq_monomials (he : e.Finite) (h : V.Covers e) (d : ℕ) :
    V.read N (d + 1) (e.render shown N.write true).toList = some e.monomials := by
  rw [Vocabulary.read, pieces_render N.plain (named_of_covers hV h)]
  exact readPieces_pieces shown N hV he h _

end Uncertain

/-! ## What is read of expressions in decision variables -/

namespace Display

theorem sumAt_append (u : ℕ → ℚ) (x : Point) (ms ns : List Monomial) :
    sumAt u x (ms ++ ns) = sumAt u x ms + sumAt u x ns := by
  simp [sumAt]

theorem sumAt_map_scale (u : ℕ → ℚ) (x : Point) (q : ℚ) (ms : List Monomial) :
    sumAt u x (ms.map (·.scale q)) = q * sumAt u x ms := by
  induction ms with
  | nil => simp [sumAt]
  | cons m ms ih =>
    simp only [sumAt, List.map_cons, List.sum_cons] at ih ⊢
    rw [ih, Monomial.value, Monomial.value, Monomial.scale]
    ring

/-- Monomials without decision variables are all multiplied by one. -/
theorem exists_mapM_times? {ms : List Monomial} (h : ∀ m ∈ ms, m.decision = none) (c : Column) :
    ∃ ns, ms.mapM (Monomial.times? c) = some ns
      ∧ ∀ u x, sumAt u x ns = sumAt u x ms * x c := by
  induction ms with
  | nil => exact ⟨[], rfl, fun u x => by simp [sumAt]⟩
  | cons m ms ih =>
    obtain ⟨hm, hms⟩ := List.forall_mem_cons.mp h
    obtain ⟨ns, hns, hvalue⟩ := ih hms
    refine ⟨{ m with decision := some c } :: ns, ?_, fun u x => ?_⟩
    · simp [Monomial.times?, hm, hns]
    · have := hvalue u x
      simp only [sumAt, List.map_cons, List.sum_cons] at this ⊢
      rw [this, Monomial.value, Monomial.value, hm]
      simp only [Option.elim_some, Option.elim_none]
      ring

namespace Vocabulary

variable (V : Vocabulary) (N : Numerals) (shown : Extended → String)

/-- The value of what is read of the written form of an expression in parameters. -/
def readValue (e : Uncertain Extended) (u : ℕ → ℚ) (x : Point) : ℚ :=
  ((V.read N 1 (e.render shown N.write true).toList).map (sumAt u x)).getD 0

/-- What a coefficient stands for: itself, if it has no parameters, but zero or one where it counts
as such; what is read of it, if it has. -/
def coefficientValue (e : Uncertain Extended) (u : ℕ → ℚ) (x : Point) : ℚ :=
  if e.terms = [] then
    if Scalar.le (Scalar.abs e.constant) Scalar.zeroTol then 0 else rounded e.constant
  else V.readValue N shown e u x

/-- What a constant part stands for: itself, if it has no parameters, or what is read of it. -/
def constantValue (e : Uncertain Extended) (u : ℕ → ℚ) (x : Point) : ℚ :=
  if e.terms = [] then e.constant.rat else V.readValue N shown e u x

variable {V N shown} (hV : V.Clear) {e : Uncertain Extended} (he : e.Finite) (h : V.Covers e)
include hV he h

theorem readValue_eq (u : ℕ → ℚ) (x : Point) :
    V.readValue N shown e u x = sumAt u x e.monomials := by
  rw [readValue, Uncertain.read_eq_monomials shown N hV he h]
  rfl

end Vocabulary

end Display

namespace Uncertain

variable {e : Uncertain Extended}

theorem decision_of_mem_monomials {m : Monomial} (h : m ∈ e.monomials) : m.decision = none := by
  rcases List.mem_append.mp h with h | h <;> obtain ⟨t, -, rfl⟩ := List.mem_map.mp h <;> rfl

theorem displayTol_eq :
    (Scalar.displayTol : Extended) = .finite (Scalar.displayTol : Extended).rat := rfl

/-- A unit coefficient is far from negligible. -/
theorem tolerance_le_of_isUnit {q : ℚ} (h : isUnit (Extended.finite q) = true) :
    Accumulator.tolerance ≤ |q| := by
  have hunit : |(|q| - 1)| ≤ Accumulator.tolerance := by
    rwa [isUnit, Extended.abs_finite, Extended.one_eq, Extended.finite_sub, Extended.abs_finite,
      Accumulator.zeroTol_eq_tolerance, Extended.le_finite, decide_eq_true_eq] at h
  have hhalf : 2 * Accumulator.tolerance ≤ 1 := by decide +kernel
  have := (abs_le.mp hunit).1
  linarith

/-- A single parameter with a unit coefficient is collected as it is. -/
theorem sorted_singleton {p : Parameter Extended} {q : ℚ} (hterms : e.terms = [(p, .finite q)])
    (hunit : isUnit (Extended.finite q) = true) : e.sorted = [(p.index, .finite q)] := by
  have hle := tolerance_le_of_isUnit hunit
  have hne : (Extended.finite q) ≠ 0 := by
    rintro heq
    obtain rfl := Extended.finite.inj heq
    exact absurd hle (by decide +kernel)
  have hcontributions : e.contributions = [(p.index, .finite q)] := by simp [contributions, hterms]
  have htouched : Accumulator.touched e.contributions = [p.index] := by
    rw [hcontributions, Accumulator.touched, List.filter_cons_of_pos (by simpa using hne)]
    rfl
  have hsums : Accumulator.sums e.contributions p.index = .finite q :=
    Accumulator.sums_eq_of_nodup (t := (p.index, .finite q)) (by simp [hcontributions])
      (by simp [hcontributions])
  have hshown : Scalar.le Scalar.zeroTol (Scalar.abs (Extended.finite q)) = true := by
    rwa [Extended.abs_finite, Accumulator.zeroTol_eq_tolerance, Extended.le_finite,
      decide_eq_true_eq]
  rw [sorted, collect_eq, Accumulator.collected, htouched,
    List.filter_cons_of_pos (by rw [hsums]; exact hshown), List.filter_nil, List.map_singleton,
    hsums, List.mergeSort_singleton]

/-- The constants that are not shown. -/
theorem not_showsConstant_iff (he : e.Finite) :
    ¬ e.ShowsConstant ↔ Scalar.lt (Scalar.abs e.constant) Scalar.displayTol = true := by
  obtain ⟨c, hc⟩ := Extended.isFinite_iff.mp he.1
  rw [ShowsConstant, hc, Extended.abs_finite, displayTol_eq, Extended.le_finite,
    Extended.lt_finite, decide_eq_true_eq, decide_eq_true_eq, not_le]

/-- A constant that is negligible as a coefficient is not shown. -/
theorem not_showsConstant (he : e.Finite)
    (h : Scalar.le (Scalar.abs e.constant) Scalar.zeroTol = true) : ¬ e.ShowsConstant := by
  obtain ⟨c, hc⟩ := Extended.isFinite_iff.mp he.1
  have hlt : Accumulator.tolerance < (Scalar.displayTol : Extended).rat := by decide +kernel
  rw [hc, Extended.abs_finite, Accumulator.zeroTol_eq_tolerance, Extended.le_finite,
    decide_eq_true_eq] at h
  rw [not_showsConstant_iff he, hc, Extended.abs_finite, displayTol_eq, Extended.lt_finite,
    decide_eq_true_eq]
  exact h.trans_lt hlt

/-- Of a unit multiple of a parameter with a negligible constant the multiple is read. -/
theorem monomials_singleton (he : e.Finite) {p : Parameter Extended} {q : ℚ}
    (hterms : e.terms = [(p, .finite q)]) (hunit : isUnit (Extended.finite q) = true)
    (h : Scalar.le (Scalar.abs e.constant) Scalar.zeroTol = true) :
    e.monomials = [.multiple (rounded (.finite q)) p.index] := by
  have hsorted := sorted_singleton hterms hunit
  rw [monomials, numbers, if_neg (by simp [hterms]), if_neg (by simp [hsorted]),
    if_neg (not_showsConstant he h), hsorted]
  rfl

end Uncertain

namespace Mixed

section Terms

variable {shown : Extended → String} {N : Numerals} {V : Vocabulary} (hV : V.Clear)
  {x : Decision Extended} {e : Uncertain Extended} (he : e.Finite) (h : V.Covers e)
include hV he h

/-- What is read of a term between parentheses. -/
theorem exists_read_group (hx : x ∈ V.decisions) (d : ℕ) :
    ∃ ms, V.readPieces N (V.read N (d + 1))
        [groupPiece (e.render shown N.write true).toList x.name.toList] = some ms
      ∧ ∀ u y, sumAt u y ms = sumAt u y e.monomials * y x.column := by
  obtain ⟨ns, hns, hvalue⟩ :=
    exists_mapM_times? (fun _ => Uncertain.decision_of_mem_monomials (e := e)) x.column
  have hparen : N.read ('(' :: ((e.render shown N.write true).toList ++ [')'])) = none := by
    cases hread : N.read ('(' :: ((e.render shown N.write true).toList ++ [')'])) with
    | none => rfl
    | some q =>
      obtain ⟨c, hc, hdigit⟩ := N.digit hread
      obtain rfl := Option.some.inj hc
      exact absurd hdigit (by decide)
  have hinner := Uncertain.read_eq_monomials shown N hV he h d
  refine ⟨ns.map (·.scale 1), ?_, fun u y => by rw [sumAt_map_scale, one_mul, hvalue]⟩
  refine Vocabulary.readPieces_singleton ?_
  simp [groupPiece, Vocabulary.readWords, hparen, hV.decision?_eq hx, hinner, hns]

/-- What is read of a term with a single parameter and without parentheses. -/
theorem exists_read_product (hx : x ∈ V.decisions) {p : Parameter Extended} {c : Extended}
    (hterms : e.terms = [(p, c)]) (hunit : isUnit c = true)
    (hconstant : Scalar.le (Scalar.abs e.constant) Scalar.zeroTol = true)
    (inner : List Char → Option (List Monomial)) :
    ∃ ms, V.readPieces N inner
        [productPiece c (p.name.asText shown).toList x.name.toList] = some ms
      ∧ ∀ u y, sumAt u y ms = sumAt u y e.monomials * y x.column := by
  obtain ⟨q, rfl⟩ := Extended.isFinite_iff.mp (he.2 (p, c) (by simp [hterms]))
  have hp : p ∈ V.parameters := h (p, .finite q) (by simp [hterms])
  have hid := hV.isIdentifier_parameter hp
  obtain ⟨⟨a, r, hcons, -⟩, hplain⟩ := hid.1
  have hparen : a ≠ '(' := (hplain a (by simp [hcons])).2.1
  have hwords : V.readWords N inner [(p.name.asText shown).toList, x.name.toList]
      = some [⟨1, some p.index, some x.column⟩] := by
    have hparameter := hV.parameter?_eq hp
    have hread := N.read_identifier hid
    rw [toList_asText hid]
    rw [hcons] at hparameter hread ⊢
    simp [Vocabulary.readWords, hread, hV.decision?_eq hx, hparameter, hparen]
  refine ⟨_, Vocabulary.readPieces_singleton hwords, fun u y => ?_⟩
  have hsign : (productPiece (.finite q) (p.name.asText shown).toList x.name.toList).negative
      = Scalar.lt (Extended.finite q) 0 := rfl
  rw [Uncertain.monomials_singleton he hterms hunit hconstant, rounded, if_pos hunit, hsign]
  simp only [sumAt, Monomial.value, Monomial.scale, Monomial.multiple, List.map_singleton,
    List.sum_singleton, Option.elim_some, Option.elim_none]
  ring

/-- What is read of a term is the product of what its coefficient stands for with the variable. -/
theorem exists_read_term (hx : x ∈ V.decisions) (d : ℕ) :
    ∃ ms, V.readPieces N (V.read N (d + 1)) (termPiece shown N.write x e).toList = some ms
      ∧ ∀ u y, sumAt u y ms = V.coefficientValue N shown e u y * y x.column := by
  have hcoefficient : e.terms ≠ [] →
      ∀ u y, V.coefficientValue N shown e u y = sumAt u y e.monomials := fun hne u y => by
    rw [Vocabulary.coefficientValue, if_neg hne, Vocabulary.readValue_eq hV he h]
  cases hpiece : termPiece shown N.write x e with
  | none =>
    obtain ⟨hterms, hzero⟩ := termPiece_eq_none hpiece
    refine ⟨[], rfl, fun u y => ?_⟩
    rw [Vocabulary.coefficientValue, if_pos hterms, if_pos hzero, zero_mul]
    rfl
  | some p =>
    rw [Option.toList_some]
    obtain ⟨hterms, hzero, rfl⟩ | ⟨q, c, hterms, hunit, hzero, rfl⟩ | ⟨hne, rfl⟩ :=
      termPiece_cases hpiece
    · obtain ⟨q, hq⟩ := Extended.isFinite_iff.mp he.1
      have hread := N.readPieces_multiplePiece (V.read N (d + 1)) (hV.isIdentifier_decision hx)
        (hV.symbol?_decision hx) q
      refine ⟨_, hq ▸ hread, fun u y => ?_⟩
      rw [Vocabulary.coefficientValue, if_pos hterms, if_neg (by simp [hzero]), hq]
      simp [sumAt, Monomial.value, Monomial.scale]
    · simp only [hcoefficient (by simp [hterms])]
      exact exists_read_product hV he h hx hterms hunit hzero _
    · simp only [hcoefficient hne]
      exact exists_read_group hV he h hx d

end Terms

variable {shown : Extended → String} {N : Numerals} {V : Vocabulary} (hV : V.Clear)
  {e : Mixed Extended} (he : e.Finite) (h : V.CoversMixed e)
include hV he h

omit he in
theorem named_of_covers : e.Named shown IsPlain :=
  ⟨Uncertain.named_of_covers hV h.1, fun t ht =>
    ⟨(hV.isIdentifier_decision (h.2 t ht).1).1, Uncertain.named_of_covers hV (h.2 t ht).2⟩⟩

variable (shown N) in
/-- What is read of the terms is the sum of what is read of each of them. -/
theorem exists_read_terms (d : ℕ) :
    ∃ ms, V.readPieces N (V.read N (d + 1)) (e.termPieces shown N.write) = some ms
      ∧ ∀ u y, sumAt u y ms
        = (e.terms.map fun t => V.coefficientValue N shown t.2 u y * y t.1.column).sum := by
  have hterms : ∀ t ∈ e.terms, ∃ ms, V.readPieces N (V.read N (d + 1))
      (termPiece shown N.write t.1 t.2).toList = some ms
      ∧ ∀ u y, sumAt u y ms = V.coefficientValue N shown t.2 u y * y t.1.column := fun t ht =>
    exists_read_term hV (he.2 t ht) (h.2 t ht).2 (h.2 t ht).1 d
  rw [termPieces]
  generalize e.terms = ts at hterms
  induction ts with
  | nil => exact ⟨[], rfl, fun u y => rfl⟩
  | cons t ts ih =>
    obtain ⟨⟨ms, hms, hvalue⟩, hrest⟩ := List.forall_mem_cons.mp hterms
    obtain ⟨ns, hns, hsum⟩ := ih hrest
    have hsplit : (t :: ts).filterMap (fun t => termPiece shown N.write t.1 t.2)
        = (termPiece shown N.write t.1 t.2).toList
          ++ ts.filterMap fun t => termPiece shown N.write t.1 t.2 := by
      cases hp : termPiece shown N.write t.1 t.2 <;> simp [hp]
    refine ⟨ms ++ ns, hsplit ▸ Vocabulary.readPieces_append hms hns, fun u y => ?_⟩
    rw [sumAt_append, hvalue, hsum, List.map_cons, List.sum_cons]

omit hV he h in
/-- A zero that stands for no pieces does not change the sum. -/
theorem exists_read_orZero {inner : List Char → Option (List Monomial)} {ps : List Piece}
    {ms : List Monomial} (hps : V.readPieces N inner ps = some ms) :
    ∃ ns, V.readPieces N inner (orZero ps) = some ns ∧ ∀ u y, sumAt u y ns = sumAt u y ms := by
  cases ps with
  | nil =>
    obtain rfl := Option.some.inj hps
    exact ⟨_, Numerals.readPieces_zeroPiece, fun u y => by
      simp [sumAt, Monomial.value, Monomial.number]⟩
  | cons p ps => exact ⟨ms, hps, fun u y => rfl⟩

variable (shown N) in
theorem sumAt_constant (u : ℕ → ℚ) (y : Point) :
    sumAt u y e.constant.monomials = V.constantValue N shown e.constant u y := by
  rw [Vocabulary.constantValue]
  split_ifs with hnil
  · rw [Uncertain.monomials, Uncertain.numbers, if_pos hnil, Uncertain.sorted_of_nil hnil]
    simp [sumAt, Monomial.value, Monomial.number]
  · rw [Vocabulary.readValue_eq hV he.1 h.1]

/-- A constant part that is not shown reads as zero. -/
theorem constantValue_of_hidden (hhidden : ¬ e.ShowsConstant shown N.write) (u : ℕ → ℚ)
    (y : Point) : V.constantValue N shown e.constant u y = 0 := by
  have hzero : e.constant.pieces shown N.write = [zeroPiece] :=
    not_not.mp (mt (showsConstant_iff N.plain (named_of_covers hV h)).mpr hhidden)
  have hread := Uncertain.readPieces_pieces shown N hV he.1 h.1 fun _ => none
  rw [hzero, Numerals.readPieces_zeroPiece] at hread
  rw [← sumAt_constant shown N hV he h, ← Option.some.inj hread]
  simp [sumAt, Monomial.value, Monomial.number]

/-- Whatever nesting of at least one is allowed, the written form reads back. -/
theorem exists_read_render (d : ℕ) :
    ∃ ms, V.read N (d + 2) (e.render shown N.write true).toList = some ms
      ∧ ∀ u y, sumAt u y ms
        = (e.terms.map fun t => V.coefficientValue N shown t.2 u y * y t.1.column).sum
          + V.constantValue N shown e.constant u y := by
  have hconstant := Uncertain.readPieces_pieces shown N hV he.1 h.1 (V.read N (d + 1))
  rw [Vocabulary.read, pieces_render N.plain (named_of_covers hV h)]
  by_cases hnil : e.terms = []
  · rw [pieces_of_nil hnil]
    refine ⟨_, hconstant, fun u y => ?_⟩
    rw [sumAt_constant shown N hV he h, hnil, List.map_nil, List.sum_nil, zero_add]
  rw [pieces_of_ne_nil hnil]
  obtain ⟨ms, hms, hvalue⟩ := exists_read_terms shown N hV he h d
  obtain ⟨ns, hns, heq⟩ := exists_read_orZero hms
  split_ifs with hshown
  · refine ⟨_, Vocabulary.readPieces_append hns hconstant, fun u y => ?_⟩
    rw [sumAt_append, heq, hvalue, sumAt_constant shown N hV he h]
  · refine ⟨ns, by rwa [List.append_nil], fun u y => ?_⟩
    rw [heq, hvalue, constantValue_of_hidden hV he h hshown, add_zero]

end Mixed

/-- Written forms read back. Let all names of a vocabulary be different identifiers and all
coefficients finite. Of an expression in parameters the collected terms are read, with unit
coefficients as one or minus one, and numbers that add up to the constant, or to zero if it is
negligible. What is read of an expression in decision variables is, at all values, the sum of its
stored terms and its constant part: coefficients without parameters stand for themselves, up to the
tolerance, the constant part without parameters for itself, and those with parameters for what is
read of their own written form. -/
theorem Display.Vocabulary.Clear.read_render {V : Vocabulary} (hV : V.Clear) (N : Numerals)
    (shown : Extended → String) (d : ℕ) :
    (∀ e : Uncertain Extended, e.Finite → V.Covers e →
      ∃ (ps : List (ℕ × Extended)) (cs : List ℚ),
        V.read N (d + 1) (e.render shown N.write true).toList
          = some (ps.map (fun t => .multiple (rounded t.2) t.1) ++ cs.map .number)
        ∧ ps.Perm e.collect
        ∧ (cs.sum = e.constant.rat
          ∨ cs.sum = 0 ∧ Scalar.lt (Scalar.abs e.constant) Scalar.displayTol = true))
    ∧ ∀ e : Mixed Extended, e.Finite → V.CoversMixed e →
      ∃ ms, V.read N (d + 2) (e.render shown N.write true).toList = some ms
        ∧ ∀ u x, sumAt u x ms
          = (e.terms.map fun t => V.coefficientValue N shown t.2 u x * x t.1.column).sum
            + V.constantValue N shown e.constant u x := by
  refine ⟨fun e he h => ?_, fun e he h => Mixed.exists_read_render hV he h d⟩
  refine ⟨e.sorted, e.numbers, Uncertain.read_eq_monomials shown N hV he h d,
    List.mergeSort_perm _ _, ?_⟩
  exact Uncertain.sum_numbers.imp_right fun ⟨hsum, hhidden⟩ =>
    ⟨hsum, (Uncertain.not_showsConstant_iff he).mp hhidden⟩

/-! ## Quotients as numerals -/

namespace Ledger

/-- The digits of the numerator and, unless it is one, of the denominator. -/
def magnitude (q : ℚ) : List Char :=
  Nat.toDigits 10 q.num.natAbs ++ if q.den = 1 then [] else '/' :: Nat.toDigits 10 q.den

def write : Extended → String
  | .finite q => String.ofList (if q < 0 then '-' :: magnitude q else magnitude q)
  | .posInf => "inf"
  | .negInf => "-inf"
  | .undefined => "nan"

/-- Read digits, and others after a stroke. -/
def read (w : List Char) : Option ℚ :=
  match w.takeWhile Char.isDigit, w.dropWhile Char.isDigit with
  | [], _ => none
  | ds, [] => some (Nat.ofDigitChars 10 ds 0)
  | ds, '/' :: es => some (Nat.ofDigitChars 10 ds 0 / Nat.ofDigitChars 10 es 0)
  | _, _ => none

theorem isDigit_of_mem {n : ℕ} {c : Char} (h : c ∈ Nat.toDigits 10 n) : c.isDigit = true :=
  Nat.isDigit_of_mem_toDigits (by decide) (by decide) h

theorem ofDigitChars_toDigits (n : ℕ) : Nat.ofDigitChars 10 (Nat.toDigits 10 n) 0 = n :=
  Nat.ofDigitChars_toDigits (by decide) (by decide)

theorem toDigits_ne_nil (n : ℕ) : Nat.toDigits 10 n ≠ [] := Nat.toDigits_ne_nil

theorem exists_magnitude_eq (q : ℚ) : ∃ c r, magnitude q = c :: r ∧ c.isDigit = true := by
  obtain ⟨c, r, hcons⟩ := List.exists_cons_of_ne_nil (toDigits_ne_nil q.num.natAbs)
  refine ⟨c, _, by rw [magnitude, hcons, List.cons_append], ?_⟩
  exact isDigit_of_mem (hcons ▸ List.mem_cons_self)

theorem isPlain_magnitude (q : ℚ) : IsPlain (magnitude q) := by
  obtain ⟨c, r, hcons, hdigit⟩ := exists_magnitude_eq q
  refine ⟨⟨c, r, hcons, ?_, ?_⟩, fun a ha => ?_⟩
  · rintro rfl
    exact absurd hdigit (by decide)
  · rintro rfl
    exact absurd hdigit (by decide)
  · have hchar : a.isDigit = true ∨ a = '/' := by
      rcases List.mem_append.mp ha with ha | ha
      · exact .inl (isDigit_of_mem ha)
      · split_ifs at ha
        · cases ha
        · rcases List.mem_cons.mp ha with rfl | ha
          · exact .inr rfl
          · exact .inl (isDigit_of_mem ha)
    refine ⟨?_, ?_, ?_⟩ <;> rintro rfl <;> revert hchar <;> decide

theorem read_magnitude (q : ℚ) : read (magnitude q) = some |q| := by
  have hdigits : ∀ c ∈ Nat.toDigits 10 q.num.natAbs, c.isDigit = true := fun _ => isDigit_of_mem
  have hnum := ofDigitChars_toDigits q.num.natAbs
  obtain ⟨c, r, hcons⟩ := List.exists_cons_of_ne_nil (toDigits_ne_nil q.num.natAbs)
  have habs : |q| = q.num.natAbs / q.den := by
    rw [Nat.cast_natAbs, Int.cast_abs, ← Nat.abs_cast q.den, ← abs_div, Rat.num_div_den]
  unfold read
  rw [magnitude, List.takeWhile_append_of_pos hdigits, List.dropWhile_append_of_pos hdigits]
  rw [hcons] at hnum ⊢
  split_ifs with hden
  · simp [hnum, habs, hden]
  · have hstroke : ('/' : Char).isDigit = false := by decide
    simp [hnum, habs, hstroke]

theorem toList_write (q : ℚ) :
    (write (.finite q)).toList = if q < 0 then '-' :: magnitude q else magnitude q := by
  simp [write]

theorem unsigned_write (q : ℚ) : unsigned (write (.finite q)).toList = magnitude q := by
  rw [toList_write]
  split_ifs
  · rfl
  · exact (isPlain_magnitude q).unsigned_eq

theorem plain_write : PlainNumerals write where
  unsigned v := by
    cases v with
    | finite q => exact unsigned_write q ▸ isPlain_magnitude q
    | posInf | negInf | undefined => simp [write, unsigned, IsPlain]
  abs v := by
    cases v with
    | finite q =>
      rw [Extended.abs_finite, toList_write, if_neg (abs_nonneg q).not_gt]
      exact isPlain_magnitude |q|
    | posInf | negInf | undefined => simp [Scalar.abs, Extended.abs, write, IsPlain]

theorem exists_digit_of_read {w : List Char} {q : ℚ} (h : read w = some q) :
    ∃ c ∈ w.head?, c.isDigit = true := by
  cases w with
  | nil => cases h
  | cons c r =>
    by_cases hdigit : c.isDigit = true
    · exact ⟨c, rfl, hdigit⟩
    · rw [read, List.takeWhile_cons_of_neg hdigit] at h
      cases h

/-- Numerators and denominators can be read. -/
def numerals : Numerals where
  write := write
  read := read
  plain := plain_write
  digit := exists_digit_of_read
  reads q := by
    rw [unsigned_write, read_magnitude, toList_write]
    split_ifs with hneg h h
    · simp [abs_of_neg hneg]
    · exact absurd rfl h
    · exact absurd h (isPlain_magnitude q).head?_ne
    · simp [abs_of_nonneg (not_lt.mp hneg)]
  zero := by decide +kernel

def hours : Decision Extended :=
  ⟨0, 0, "x", .negInf, .posInf, ⟨0, none, .decision 0, false, false⟩⟩

def parts : Decision Extended :=
  ⟨0, 1, "y", .negInf, .posInf, ⟨1, none, .decision 1, false, false⟩⟩

def rate : Parameter Extended := ⟨0, 0, .text "u", .finite 1, .finite 2⟩

def vocabulary : Vocabulary := ⟨[rate], [hours, parts]⟩

/-- `2 u + 1`. -/
def wage : Uncertain Extended := ⟨[(rate, .finite 2)], .finite 1⟩

/-- `(2 u + 1) x + u y - 3 y + 4`. -/
def bill : Mixed Extended :=
  ⟨[(hours, wage), (parts, .ofParameter rate), (parts, .ofConstant (.finite (-3)))],
    .ofConstant (.finite 4)⟩

theorem clear_vocabulary : vocabulary.Clear := by
  have hnames : vocabulary.names = [['u'], ['x'], ['y']] := rfl
  refine ⟨?_, by rw [hnames]; decide⟩
  rw [hnames]
  simp [IsIdentifier, IsPlain]

theorem finite_bill : bill.Finite := by
  simp [bill, wage, Mixed.Finite, Uncertain.Finite, Uncertain.ofConstant, Uncertain.ofParameter]

theorem covers_bill : vocabulary.CoversMixed bill := by
  simp [bill, wage, vocabulary, Vocabulary.CoversMixed, Vocabulary.Covers, Uncertain.ofConstant,
    Uncertain.ofParameter]

theorem coefficientValue_numeral (u : ℕ → ℚ) (y : Point) :
    vocabulary.coefficientValue numerals (fun _ => "") (.ofConstant (.finite (-3))) u y = -3 := by
  have hrounded : rounded (.finite (-3)) = -3 := by decide +kernel
  have hnil : (Uncertain.ofConstant (Extended.finite (-3))).terms = [] := rfl
  rw [Vocabulary.coefficientValue, if_pos hnil, if_neg (by decide +kernel)]
  exact hrounded

/-- The bill reads as the sum of what its two coefficients with parameters read as, each times its
variable, three times the second variable less, and four. -/
theorem read_render_bill : vocabulary.Clear ∧ wage.Finite ∧ bill.Finite
    ∧ (∃ (ps : List (ℕ × Extended)) (cs : List ℚ),
      vocabulary.read numerals 1 (wage.render (fun _ => "") write true).toList
        = some (ps.map (fun t => .multiple (rounded t.2) t.1) ++ cs.map .number)
      ∧ ps.Perm wage.collect ∧ cs.sum = 1)
    ∧ ∃ ms, vocabulary.read numerals 2 (bill.render (fun _ => "") write true).toList = some ms
      ∧ ∀ u y, sumAt u y ms
        = vocabulary.readValue numerals (fun _ => "") wage u y * y hours.column
          + vocabulary.readValue numerals (fun _ => "") (.ofParameter rate) u y * y parts.column
          - 3 * y parts.column + 4 := by
  have hwage : wage.Finite := finite_bill.2 (hours, wage) (by simp [bill])
  have hcovers : vocabulary.Covers wage := (covers_bill.2 (hours, wage) (by simp [bill])).2
  obtain ⟨huncertain, hmixed⟩ := clear_vocabulary.read_render numerals (fun _ => "") 0
  obtain ⟨ps, cs, hread, hperm, hsum⟩ := huncertain wage hwage hcovers
  obtain ⟨ms, hms, hvalue⟩ := hmixed bill finite_bill covers_bill
  refine ⟨clear_vocabulary, hwage, finite_bill, ⟨ps, cs, hread, hperm, ?_⟩, ms, hms, fun u y => ?_⟩
  · -- a constant of one is not negligible
    exact hsum.resolve_right fun h => absurd h.2 (by decide +kernel)
  · have hconstant : vocabulary.constantValue numerals (fun _ => "") bill.constant u y = 4 := rfl
    have hfirst : vocabulary.coefficientValue numerals (fun _ => "") wage u y
        = vocabulary.readValue numerals (fun _ => "") wage u y := rfl
    have hsecond : vocabulary.coefficientValue numerals (fun _ => "") (.ofParameter rate) u y
        = vocabulary.readValue numerals (fun _ => "") (.ofParameter rate) u y := rfl
    rw [hvalue, hconstant]
    simp only [bill, List.map_cons, List.map_nil, List.sum_cons, List.sum_nil, hfirst, hsecond,
      coefficientValue_numeral]
    ring

end Ledger

end RobustOpt
