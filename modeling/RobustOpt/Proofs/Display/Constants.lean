import RobustOpt.Proofs.Display

/-!
# Appended constants

An expression in parameters ends in its constant if that is not negligible. An expression in
decision variables shows what its constant part is written as, unless that is empty or zero: with
parameters in it the number is hidden if it is negligible, without any it is hidden only if it is
zero.

## Main definitions

* `Display.EndsInNumber`: the last of several pieces of a text is a number.
* `Display.Numbers`: numerals that are numbers, zero alone being written as such.

## Main statements

* `Display.endsInNumber_render`: the expressions that are written with a number at their end.
-/

namespace RobustOpt

open Display

namespace Display

/-- Whether a text ends in a number that is appended to other pieces. The number is a word outside
parentheses. -/
def EndsInNumber (IsNumber : List Char → Prop) (text : String) : Prop :=
  ∃ front p w, pieces text.toList = front ++ [p] ∧ front ≠ [] ∧ p.words = [w] ∧ IsNumber w

/-- A kind of words that has all numerals without their signs. Zero alone is written `0`. -/
structure Numbers (numeral : Extended → String) (IsNumber : List Char → Prop) : Prop where
  plain : PlainNumerals numeral
  number : ∀ v, IsNumber (unsigned (numeral v).toList)
  zero : ∀ v, numeral v = "0" ↔ v = 0

/-- A name is a plain word, but no number. -/
def IsName (IsNumber : List Char → Prop) (w : List Char) : Prop := IsPlain w ∧ ¬ IsNumber w

variable {IsNumber : List Char → Prop} {numeral shown : Extended → String}

/-- The last piece of a text decides. -/
theorem endsInNumber_of_append {text : String} {front : List Piece} {p : Piece}
    (h : pieces text.toList = front ++ [p]) (hne : front ≠ []) :
    EndsInNumber IsNumber text ↔ ∃ w, p.words = [w] ∧ IsNumber w := by
  constructor
  · rintro ⟨front', q, w, hpieces, -, hw⟩
    obtain ⟨-, heq⟩ := List.append_inj' (h.symm.trans hpieces) rfl
    obtain rfl := List.singleton_inj.mp heq
    exact ⟨w, hw⟩
  · rintro ⟨w, hw⟩
    exact ⟨front, p, w, h, hne, hw⟩

/-- A text does not end in a number if none of its last pieces is one. -/
theorem not_endsInNumber_of_append {text : String} {front ps : List Piece}
    (h : pieces text.toList = front ++ ps) (hne : ps ≠ [])
    (hps : ∀ p ∈ ps, ∀ w, p.words = [w] → ¬ IsNumber w) : ¬ EndsInNumber IsNumber text := by
  rintro ⟨front', q, w, hpieces, -, hw, hnumber⟩
  obtain ⟨ps, p, rfl⟩ := List.eq_nil_or_concat ps |>.resolve_left hne
  rw [List.concat_eq_append, ← List.append_assoc] at h
  obtain ⟨-, heq⟩ := List.append_inj' (h.symm.trans hpieces) rfl
  obtain rfl := List.singleton_inj.mp heq
  exact hps p (by simp) w hw hnumber

/-- A number that stands alone is not appended. -/
theorem not_endsInNumber_of_orZero {text : String} {ps : List Piece}
    (h : pieces text.toList = orZero ps) (hps : ∀ p ∈ ps, ∀ w, p.words = [w] → ¬ IsNumber w) :
    ¬ EndsInNumber IsNumber text := by
  cases ps with
  | cons p ps =>
    have hfront : pieces text.toList = [] ++ (p :: ps) := h
    exact not_endsInNumber_of_append hfront (by simp) hps
  | nil =>
    rintro ⟨front, p, w, hpieces, hne, -⟩
    have hlen := congrArg List.length (h.symm.trans hpieces)
    rw [orZero_nil, List.length_singleton, List.length_append, List.length_singleton] at hlen
    exact hne (List.length_eq_zero_iff.mp (by omega))

end Display

namespace Uncertain

variable {IsNumber : List Char → Prop} {numeral shown : Extended → String}
  {e : Uncertain Extended}

/-- A term is not written as a number. -/
theorem not_number_of_mem_termPieces (hnames : e.Named shown (IsName IsNumber)) {p : Piece}
    (h : p ∈ e.termPieces shown numeral) {w : List Char} (hw : p.words = [w]) : ¬ IsNumber w := by
  obtain ⟨⟨i, c⟩, hmem, rfl⟩ := List.mem_map.mp h
  obtain ⟨t, ht, -, hname⟩ := exists_name_of_mem_sorted shown hmem
  unfold multiplePiece at hw
  split_ifs at hw
  · obtain rfl := List.singleton_inj.mp hw
    exact hname ▸ (hnames t ht).2
  · simp at hw

/-- The number at the end of an expression in parameters. -/
theorem endsInNumber_iff (h : Numbers numeral IsNumber) (hnames : e.Named shown (IsName IsNumber))
    (hne : e.terms ≠ []) :
    EndsInNumber IsNumber (e.render shown numeral true) ↔ e.ShowsConstant := by
  have hpieces := pieces_render h.plain (Named.mono hnames fun _ => And.left)
  rw [pieces_of_ne_nil hne] at hpieces
  by_cases hshown : e.ShowsConstant
  · rw [if_pos hshown] at hpieces
    rw [endsInNumber_of_append hpieces (orZero_ne_nil _)]
    exact iff_of_true ⟨_, rfl, h.number e.constant⟩ hshown
  · rw [if_neg hshown, List.append_nil] at hpieces
    refine iff_of_false (not_endsInNumber_of_orZero hpieces fun p hp w hw => ?_) hshown
    exact not_number_of_mem_termPieces hnames hp hw

end Uncertain

namespace Mixed

variable {IsNumber : List Char → Prop} {numeral shown : Extended → String}
  {e : Mixed Extended}

theorem not_number_of_mem_termPieces (hnames : e.Named shown (IsName IsNumber)) {p : Piece}
    (h : p ∈ e.termPieces shown numeral) {w : List Char}
    (hw : p.words = [w]) : ¬ IsNumber w := by
  obtain ⟨⟨x, c⟩, ht, hpiece⟩ := List.mem_filterMap.mp h
  have hx : ¬ IsNumber x.name.toList := (hnames.2 _ ht).1.2
  obtain ⟨-, -, rfl⟩ | ⟨q, b, -, -, -, rfl⟩ | ⟨-, rfl⟩ := termPiece_cases hpiece
  · unfold multiplePiece at hw
    split_ifs at hw
    · exact List.singleton_inj.mp hw ▸ hx
    · simp at hw
  · simp [productPiece] at hw
  · simp [groupPiece] at hw

variable (h : Numbers numeral IsNumber) (hnames : e.Named shown (IsName IsNumber))
  (hne : e.terms ≠ [])
include h hnames hne

/-- A constant part without parameters is a number, which is written as a piece unless it is zero. -/
theorem endsInNumber_iff_of_nil (hnil : e.constant.terms = []) :
    EndsInNumber IsNumber (e.render shown numeral true) ↔ e.constant.constant ≠ 0 := by
  have hplain := Named.mono hnames fun _ => And.left
  have hpieces := pieces_render h.plain hplain
  have hshows := showsConstant_iff h.plain hplain
  rw [pieces_of_ne_nil hne, Uncertain.pieces_of_nil hnil] at hpieces
  rw [Uncertain.pieces_of_nil hnil, Ne, List.singleton_inj, numberPiece_eq_zeroPiece_iff,
    h.zero] at hshows
  by_cases hzero : e.constant.constant = 0
  · rw [if_neg (mt hshows.mp (not_not.mpr hzero)), List.append_nil] at hpieces
    refine iff_of_false (not_endsInNumber_of_orZero hpieces fun p hp w hw => ?_)
      (not_not.mpr hzero)
    exact not_number_of_mem_termPieces hnames hp hw
  · rw [if_pos (hshows.mpr hzero)] at hpieces
    rw [endsInNumber_of_append hpieces (orZero_ne_nil _)]
    exact iff_of_true ⟨_, rfl, h.number _⟩ hzero

/-- A constant part with parameters is written like an expression of its own, but for a zero. -/
theorem endsInNumber_iff_of_ne_nil (hterms : e.constant.terms ≠ []) :
    EndsInNumber IsNumber (e.render shown numeral true) ↔ e.constant.ShowsConstant := by
  have hplain := Named.mono hnames fun _ => And.left
  have hpieces := pieces_render h.plain hplain
  have hshows := showsConstant_iff h.plain hplain
  rw [pieces_of_ne_nil hne, Uncertain.pieces_of_ne_nil hterms] at hpieces
  rw [Uncertain.pieces_of_ne_nil hterms] at hshows
  by_cases hconstant : e.constant.ShowsConstant
  · rw [if_pos hconstant] at hpieces hshows
    rw [if_pos (hshows.mpr (orZero_append_ne _ _ _)), ← List.append_assoc] at hpieces
    rw [endsInNumber_of_append hpieces (by simp [orZero_ne_nil])]
    exact iff_of_true ⟨_, rfl, h.number _⟩ hconstant
  · -- no terms are left of the constant part, and it is hidden, or the last one is no number
    rw [if_neg hconstant, List.append_nil] at hpieces hshows
    refine iff_of_false ?_ hconstant
    have hfirst : ∀ p ∈ e.termPieces shown numeral, ∀ w, p.words = [w] → ¬ IsNumber w :=
      fun p hp w => not_number_of_mem_termPieces hnames hp
    by_cases hshown : e.ShowsConstant shown numeral
    · have hnil : e.constant.termPieces shown numeral ≠ [] := by
        intro hnil
        exact hshows.mp hshown (by rw [hnil, orZero_nil])
      rw [if_pos hshown, orZero_of_ne_nil hnil] at hpieces
      refine not_endsInNumber_of_append hpieces hnil fun p hp w hw => ?_
      exact Uncertain.not_number_of_mem_termPieces hnames.1 hp hw
    · rw [if_neg hshown, List.append_nil] at hpieces
      exact not_endsInNumber_of_orZero hpieces hfirst

theorem endsInNumber_iff : EndsInNumber IsNumber (e.render shown numeral true) ↔
    if e.constant.terms = [] then e.constant.constant ≠ 0 else e.constant.ShowsConstant := by
  split_ifs with hnil
  · exact endsInNumber_iff_of_nil h hnames hne hnil
  · exact endsInNumber_iff_of_ne_nil h hnames hne hnil

end Mixed

/-- Expressions with terms end in a number as follows. An expression in parameters does so if its
constant is not negligible, and one in decision variables if that of its constant part is not
negligible. If the constant part has no parameters, though, it is enough that it is not zero. -/
theorem Display.endsInNumber_render {IsNumber : List Char → Prop}
    {shown numeral : Extended → String} (h : Numbers numeral IsNumber) :
    (∀ e : Uncertain Extended, e.terms ≠ [] → e.Named shown (IsName IsNumber) →
      (EndsInNumber IsNumber (e.render shown numeral true)
        ↔ Scalar.le Scalar.displayTol (Scalar.abs e.constant) = true))
    ∧ ∀ e : Mixed Extended, e.terms ≠ [] → e.Named shown (IsName IsNumber) →
      (EndsInNumber IsNumber (e.render shown numeral true)
        ↔ if e.constant.terms = [] then e.constant.constant ≠ 0
          else Scalar.le Scalar.displayTol (Scalar.abs e.constant.constant) = true) :=
  ⟨fun _ hne hnames => Uncertain.endsInNumber_iff h hnames hne,
    fun _ hne hnames => Mixed.endsInNumber_iff h hnames hne⟩

/-! ## A fee and a rounding error -/

namespace Invoice

def hours : Decision Extended :=
  ⟨0, 0, "x", .negInf, .posInf, ⟨0, none, .decision 0, false, false⟩⟩

def rate : Parameter Extended := ⟨0, 0, .text "u", .finite 1, .finite 2⟩

/-- What is left of a sum that should be zero. -/
def error : Extended := .finite (1 / 10000000)

/-- The numerals of zero, one and the error. -/
def numeral (v : Extended) : String := if v = 0 then "0" else if v = error then "1e-07" else "1"

def IsNumber (w : List Char) : Prop := ∃ c r, w = c :: r ∧ c.isDigit = true

/-- `x` and the error. -/
def total : Mixed Extended := ⟨[(hours, .ofConstant 1)], .ofConstant error⟩

/-- `u` and the error. -/
def fee : Uncertain Extended := ⟨[(rate, 1)], error⟩

def shown (_ : Extended) : String := ""

theorem numeral_cases (v : Extended) :
    numeral v = "0" ∨ numeral v = "1e-07" ∨ numeral v = "1" := by
  unfold numeral
  split_ifs <;> simp

theorem numbers : Numbers numeral IsNumber where
  plain :=
    { unsigned := fun v => by
        obtain h | h | h := numeral_cases v <;> rw [h] <;> simp [unsigned, IsPlain]
      abs := fun v => by
        obtain h | h | h := numeral_cases (Scalar.abs v) <;> rw [h] <;> simp [IsPlain] }
  number := fun v => by
    obtain h | h | h := numeral_cases v <;> rw [h] <;> simp [unsigned, IsNumber]
  zero := fun v => by
    unfold numeral
    split_ifs with h0 h1
    · simp [h0]
    · simp [h0]
    · simp [h0]

theorem isName {s : String} (h : s = "x" ∨ s = "u") : IsName IsNumber s.toList := by
  obtain rfl | rfl := h <;> simp [IsName, IsPlain, IsNumber]

theorem named_total : total.Named shown (IsName IsNumber) := by
  refine ⟨nofun, fun t ht => ?_⟩
  obtain rfl := List.mem_singleton.mp ht
  exact ⟨isName (.inl rfl), nofun⟩

theorem named_fee : fee.Named shown (IsName IsNumber) := by
  intro t ht
  obtain rfl := List.mem_singleton.mp ht
  exact isName (.inr rfl)

/-- The error is negligible, but shown all the same. -/
theorem not_endsInNumber_render : ¬ ∀ e : Mixed Extended, e.terms ≠ [] →
    e.Named shown (IsName IsNumber) →
    (EndsInNumber IsNumber (e.render shown numeral true)
      ↔ Scalar.le Scalar.displayTol (Scalar.abs e.constant.constant) = true) := by
  intro h
  have hend : EndsInNumber IsNumber (total.render shown numeral true) :=
    (Mixed.endsInNumber_iff numbers named_total (by simp [total])).mpr (by decide +kernel)
  have hle := (h total (by simp [total]) named_total).mp hend
  revert hle
  decide +kernel

/-- The error is shown after `x`, but not after `u`. -/
theorem endsInNumber_render_error : EndsInNumber IsNumber (total.render shown numeral true)
    ∧ ¬ EndsInNumber IsNumber (fee.render shown numeral true) := by
  obtain ⟨huncertain, hmixed⟩ := @Display.endsInNumber_render IsNumber shown numeral numbers
  have hfee := huncertain fee (by simp [fee]) named_fee
  have htotal := hmixed total (by simp [total]) named_total
  exact ⟨htotal.mpr (by decide +kernel), fun h => absurd (hfee.mp h) (by decide +kernel)⟩

end Invoice

end RobustOpt
