import Mathlib.Algebra.Order.Field.Basic
import RobustOpt.Proofs.Display

/-!
# Reading texts

The pieces of a text are read one by one, as numbers and as products of a number or a text between
parentheses with named symbols. Numbers and names are told apart by their first character, so that
a vocabulary can be read as soon as its names are different identifiers.

## Main definitions

* `Display.Monomial`: what is read of a piece.
* `Display.Vocabulary`: symbols with their names, and `Vocabulary.Clear` if they can be told apart.
* `Display.Numerals`: numerals that can be read.
* `Display.Vocabulary.read`: reading a text.

## Main statements

* `Vocabulary.readPieces_append`: pieces are read one by one.
* `Numerals.readPieces_numberPiece`, `Numerals.readPieces_multiplePiece`: reading a number, and a
  multiple of a symbol.
-/

namespace RobustOpt

namespace Display

/-! ## Monomials -/

/-- The product of a number with at most one parameter and at most one decision variable. -/
structure Monomial where
  coefficient : ℚ
  parameter : Option ℕ
  decision : Option Column

namespace Monomial

def number (q : ℚ) : Monomial := ⟨q, none, none⟩

/-- A multiple of a parameter. -/
def multiple (q : ℚ) (i : ℕ) : Monomial := ⟨q, some i, none⟩

def scale (q : ℚ) (m : Monomial) : Monomial := { m with coefficient := q * m.coefficient }

/-- The product with a decision variable, if there is none yet. -/
def times? (c : Column) (m : Monomial) : Option Monomial :=
  if m.decision.isSome then none else some { m with decision := some c }

def value (u : ℕ → ℚ) (x : Point) (m : Monomial) : ℚ :=
  m.coefficient * m.parameter.elim 1 u * m.decision.elim 1 x

end Monomial

/-- The value of a sum of monomials. -/
def sumAt (u : ℕ → ℚ) (x : Point) (ms : List Monomial) : ℚ := (ms.map (·.value u x)).sum

/-! ## Names and numerals -/

/-- Parameters and decision variables with their names. -/
structure Vocabulary where
  parameters : List (Parameter Extended)
  decisions : List (Decision Extended)

/-- A name is a plain word that does not start with a digit. -/
def IsIdentifier (w : List Char) : Prop := IsPlain w ∧ ∀ c ∈ w.head?, c.isDigit = false

/-- Numerals that read back to the numbers they are written for. Only the sign of a number is not
part of what is read as a numeral. -/
structure Numerals where
  write : Extended → String
  read : List Char → Option ℚ
  plain : PlainNumerals write
  digit : ∀ {w q}, read w = some q → ∃ c ∈ w.head?, c.isDigit = true
  reads : ∀ q : ℚ, (read (unsigned (write (.finite q)).toList)).map
    (fun r => if (write (.finite q)).toList.head? = some '-' then -r else r) = some q
  zero : write 0 = "0"

/-- The name of a parameter as a word, if it is a text. -/
def nameWord (p : Parameter Extended) : List Char :=
  match p.name with
  | .text s => s.toList
  | _ => []

theorem toList_asText {p : Parameter Extended} (h : IsIdentifier (nameWord p))
    (shown : Extended → String) : (p.name.asText shown).toList = nameWord p := by
  obtain ⟨⟨⟨c, r, hcons, -⟩, -⟩, -⟩ := h
  unfold nameWord at hcons ⊢
  split at hcons
  · rename_i s hname
    rw [hname]
    rfl
  · cases hcons

namespace Vocabulary

variable (V : Vocabulary)

/-- All names. -/
def names : List (List Char) := V.parameters.map nameWord ++ V.decisions.map (·.name.toList)

/-- The names are different identifiers. -/
structure Clear : Prop where
  identifier : ∀ w ∈ V.names, IsIdentifier w
  distinct : V.names.Nodup

def parameter? (w : List Char) : Option (Parameter Extended) :=
  V.parameters.find? fun p => nameWord p == w

def decision? (w : List Char) : Option (Decision Extended) :=
  V.decisions.find? fun d => d.name.toList == w

/-- The symbol of a name. -/
def symbol? (w : List Char) : Option Monomial :=
  match V.parameter? w with
  | some p => some (.multiple 1 p.index)
  | none => (V.decision? w).map fun d => ⟨1, none, some d.column⟩

/-- Whether all symbols of an expression belong to a vocabulary. -/
def Covers (e : Uncertain Extended) : Prop := ∀ t ∈ e.terms, t.1 ∈ V.parameters

/-- Whether all symbols of an expression belong to a vocabulary. -/
def CoversMixed (e : Mixed Extended) : Prop :=
  V.Covers e.constant ∧ ∀ t ∈ e.terms, t.1 ∈ V.decisions ∧ V.Covers t.2

/-! ## Reading -/

variable (N : Numerals)

/-- Read the words of a piece: a number, a name, a number and a name, a parameter and a decision
variable, or a text between parentheses and a decision variable. -/
def readWords (inner : List Char → Option (List Monomial)) :
    List (List Char) → Option (List Monomial)
  | [w] =>
    match N.read w with
    | some q => some [.number q]
    | none => (V.symbol? w).map fun m => [m]
  | [v, w] =>
    match N.read v with
    | some q => (V.symbol? w).map fun m => [m.scale q]
    | none => do
      let d ← V.decision? w
      match v with
      | '(' :: cs =>
        if cs.getLast? = some ')' then (← inner cs.dropLast).mapM (Monomial.times? d.column)
        else none
      | _ => return [⟨1, some (← V.parameter? v).index, some d.column⟩]
  | _ => none

/-- Read pieces, the minus sign of a piece negating what its words stand for. -/
def readPieces (inner : List Char → Option (List Monomial)) : List Piece → Option (List Monomial)
  | [] => some []
  | p :: ps => do
    let ms ← V.readWords N inner p.words
    return ms.map (·.scale (if p.negative then -1 else 1)) ++ (← readPieces inner ps)

/-- Read a text whose parentheses are not nested deeper than a number. -/
def read : ℕ → List Char → Option (List Monomial)
  | 0, _ => none
  | d + 1, cs => V.readPieces N (read d) (pieces cs)

variable {V N} {inner : List Char → Option (List Monomial)}

theorem readPieces_append {ps qs : List Piece} {ms ns : List Monomial}
    (hps : V.readPieces N inner ps = some ms) (hqs : V.readPieces N inner qs = some ns) :
    V.readPieces N inner (ps ++ qs) = some (ms ++ ns) := by
  induction ps generalizing ms with
  | nil =>
    obtain rfl := Option.some.inj hps
    simpa using hqs
  | cons p ps ih =>
    rw [readPieces] at hps
    obtain ⟨m, hm, hps⟩ := Option.bind_eq_some_iff.mp hps
    obtain ⟨r, hr, hps⟩ := Option.bind_eq_some_iff.mp hps
    obtain rfl := Option.some.inj hps
    rw [List.cons_append, readPieces, hm, ih hr]
    simp

theorem readPieces_singleton {p : Piece} {ms : List Monomial}
    (h : V.readWords N inner p.words = some ms) :
    V.readPieces N inner [p] = some (ms.map (·.scale (if p.negative then -1 else 1))) := by
  simp [readPieces, h]

theorem readPieces_map {β : Type} {f : β → Piece} {g : β → Monomial} {l : List β}
    (h : ∀ b ∈ l, V.readPieces N inner [f b] = some [g b]) :
    V.readPieces N inner (l.map f) = some (l.map g) := by
  induction l with
  | nil => rfl
  | cons b l ih =>
    obtain ⟨hb, hl⟩ := List.forall_mem_cons.mp h
    have happend : V.readPieces N inner ([f b] ++ l.map f) = some ([g b] ++ l.map g) :=
      readPieces_append hb (ih hl)
    exact happend

/-! ### Names -/

theorem find?_eq_some_of_nodup {β : Type} {f : β → List Char} {l : List β}
    (h : (l.map f).Nodup) {b : β} (hb : b ∈ l) : (l.find? fun a => f a == f b) = some b := by
  have hsome : (l.find? fun a => f a == f b).isSome = true :=
    List.find?_isSome.mpr ⟨b, hb, beq_self_eq_true _⟩
  obtain ⟨a, ha⟩ := Option.isSome_iff_exists.mp hsome
  have heq : f a = f b := by simpa using List.find?_some ha
  rw [ha, List.inj_on_of_nodup_map h (List.mem_of_find?_eq_some ha) hb heq]

section Names

variable (hV : V.Clear)
include hV

theorem Clear.isIdentifier_parameter {p : Parameter Extended} (hp : p ∈ V.parameters) :
    IsIdentifier (nameWord p) :=
  hV.identifier _ (List.mem_append_left _ (List.mem_map_of_mem hp))

theorem Clear.isIdentifier_decision {d : Decision Extended} (hd : d ∈ V.decisions) :
    IsIdentifier d.name.toList :=
  hV.identifier _ (List.mem_append_right _ (List.mem_map_of_mem hd))

theorem Clear.parameter?_eq {p : Parameter Extended} (hp : p ∈ V.parameters) :
    V.parameter? (nameWord p) = some p :=
  find?_eq_some_of_nodup (List.nodup_append.mp hV.distinct).1 hp

theorem Clear.decision?_eq {d : Decision Extended} (hd : d ∈ V.decisions) :
    V.decision? d.name.toList = some d :=
  find?_eq_some_of_nodup (List.nodup_append.mp hV.distinct).2.1 hd

theorem Clear.symbol?_parameter {p : Parameter Extended} (hp : p ∈ V.parameters) :
    V.symbol? (nameWord p) = some (.multiple 1 p.index) := by
  rw [symbol?, hV.parameter?_eq hp]

/-- No parameter has the name of a decision variable. -/
theorem Clear.symbol?_decision {d : Decision Extended} (hd : d ∈ V.decisions) :
    V.symbol? d.name.toList = some ⟨1, none, some d.column⟩ := by
  have hnone : V.parameter? d.name.toList = none := by
    refine List.find?_eq_none.mpr fun p hp heq => ?_
    exact (List.nodup_append.mp hV.distinct).2.2 _ (List.mem_map_of_mem hp) _
      (List.mem_map_of_mem hd) (by simpa using heq)
  rw [symbol?, hnone, hV.decision?_eq hd]
  rfl

end Names

end Vocabulary

/-! ### Numbers -/

namespace Numerals

variable (N : Numerals)

theorem read_identifier {w : List Char} (h : IsIdentifier w) : N.read w = none := by
  cases hread : N.read w with
  | none => rfl
  | some q =>
    obtain ⟨c, hc, hdigit⟩ := N.digit hread
    exact absurd hdigit (by simp [h.2 c hc])

/-- The numeral of a number that is not negative is read without a sign. -/
theorem read_abs (q : ℚ) : N.read (N.write (.finite |q|)).toList = some |q| := by
  have hplain : IsPlain (N.write (.finite |q|)).toList :=
    Extended.abs_finite q ▸ N.plain.abs (.finite q)
  have hreads := N.reads |q|
  rw [hplain.unsigned_eq] at hreads
  simpa [hplain.head?_ne] using hreads

variable {N} {V : Vocabulary} {inner : List Char → Option (List Monomial)}

theorem readPieces_numberPiece (q : ℚ) :
    V.readPieces N inner [numberPiece N.write (.finite q)] = some [.number q] := by
  obtain ⟨r, hr, hq⟩ := Option.map_eq_some_iff.mp (N.reads q)
  have hwords : V.readWords N inner (numberPiece N.write (.finite q)).words
      = some [.number r] := by
    simp [numberPiece, Vocabulary.readWords, hr]
  have hsign : (if (numberPiece N.write (.finite q)).negative = true then (-1 : ℚ) else 1) * r
      = q := by
    refine Eq.trans ?_ hq
    simp only [numberPiece, decide_eq_true_eq]
    split_ifs <;> simp
  rw [Vocabulary.readPieces_singleton hwords]
  simp only [List.map_singleton, Monomial.scale, Monomial.number, hsign]

theorem readPieces_zeroPiece : V.readPieces N inner [zeroPiece] = some [.number 0] := by
  have h : V.readPieces N inner [numberPiece N.write (.finite 0)] = some [.number 0] :=
    readPieces_numberPiece 0
  rwa [← Extended.zero_eq, (numberPiece_eq_zeroPiece_iff N.write).mpr N.zero] at h

end Numerals

/-- What a coefficient reads as: one or minus one if it is, up to the tolerance. -/
def rounded (c : Extended) : ℚ :=
  if isUnit c then if Scalar.lt c 0 then -1 else 1 else c.rat

theorem Monomial.scale_scale (p q : ℚ) (m : Monomial) :
    (m.scale q).scale p = m.scale (p * q) := by
  simp [scale, mul_assoc]

theorem Numerals.readPieces_multiplePiece (N : Numerals) {V : Vocabulary}
    (inner : List Char → Option (List Monomial)) {w : List Char} {m : Monomial}
    (hw : IsIdentifier w) (hm : V.symbol? w = some m) (q : ℚ) :
    V.readPieces N inner [multiplePiece N.write (.finite q) w]
      = some [m.scale (rounded (.finite q))] := by
  have hneg : (multiplePiece N.write (.finite q) w).negative = decide (q < 0) :=
    Extended.lt_finite q 0
  by_cases hunit : isUnit (Extended.finite q) = true
  · have hwords : V.readWords N inner (multiplePiece N.write (.finite q) w).words = some [m] := by
      simp [multiplePiece, hunit, Vocabulary.readWords, N.read_identifier hw, hm]
    rw [Vocabulary.readPieces_singleton hwords, rounded, if_pos hunit]
    rfl
  · have hwords : V.readWords N inner (multiplePiece N.write (.finite q) w).words
        = some [m.scale |q|] := by
      simp [multiplePiece, hunit, Vocabulary.readWords, N.read_abs, hm]
    have hsign : (if q < 0 then (-1 : ℚ) else 1) * |q| = q := by
      split_ifs with h
      · rw [abs_of_neg h]; ring
      · rw [abs_of_nonneg (not_lt.mp h), one_mul]
    rw [Vocabulary.readPieces_singleton hwords, rounded, if_neg hunit, List.map_singleton,
      Monomial.scale_scale, Extended.rat_finite, hneg]
    simp only [decide_eq_true_eq, hsign]

end Display

end RobustOpt
