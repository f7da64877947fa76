import RobustOpt.Display
import RobustOpt.Proofs.Collection

/-!
# Written forms as signed pieces

A written form is a sum of pieces, each of them one or two words. Its words are what the blanks
outside parentheses separate, and a plus or minus sign that is a word of its own starts a new piece;
only the first piece has a bare minus sign. As long as names and numerals are plain words, the
pieces of a written form can be told from its text.

## Main definitions

* `Display.words`: the words of a text.
* `Display.pieces`: the pieces of a text, and `Display.spell` the text of pieces.
* `Display.IsPlain`: the words that can stand for names and numerals.
* `Uncertain.pieces`, `Mixed.pieces`: the pieces that are written for an expression.

## Main statements

* `Display.pieces_spell`: the pieces of a text that was spelled.
* `Uncertain.pieces_render`, `Mixed.pieces_render`: the pieces of written forms.
-/

namespace RobustOpt

namespace Display

/-! ## Words -/

/-- The depth of parentheses after a character. -/
def depthAfter (d : ℕ) (c : Char) : ℕ :=
  if c = '(' then d + 1 else if c = ')' then d - 1 else d

/-- The first word of a text and the others, the text starting at a depth of parentheses. -/
def cut : ℕ → List Char → List Char × List (List Char)
  | _, [] => ([], [])
  | d, c :: cs =>
    if c = ' ' ∧ d = 0 then ([], (cut 0 cs).1 :: (cut 0 cs).2)
    else (c :: (cut (depthAfter d c) cs).1, (cut (depthAfter d c) cs).2)

/-- The words of a text, separated by single blanks outside parentheses. -/
def words (cs : List Char) : List (List Char) := (cut 0 cs).1 :: (cut 0 cs).2

/-- Words in a row. -/
def row : List (List Char) → List Char
  | [] => []
  | w :: ws => w ++ ws.flatMap (' ' :: ·)

/-- Whether a text stays in one word, whatever it is followed by. -/
def IsWord (w : List Char) : Prop :=
  ∀ rest, cut 0 (w ++ rest) = (w ++ (cut 0 rest).1, (cut 0 rest).2)

theorem row_append {ws : List (List Char)} (h : ws ≠ []) (vs : List (List Char)) :
    row (ws ++ vs) = row ws ++ vs.flatMap (' ' :: ·) := by
  cases ws with
  | nil => exact absurd rfl h
  | cons w ws => simp [row]

theorem cut_row {w : List Char} {ws : List (List Char)} (h : ∀ v ∈ w :: ws, IsWord v) :
    cut 0 (row (w :: ws)) = (w, ws) := by
  induction ws generalizing w with
  | nil =>
    rw [row, List.flatMap_nil, h w (by simp)]
    simp [cut]
  | cons v ws ih =>
    have hrest := ih (List.forall_mem_cons.mp h).2
    rw [row] at hrest
    rw [row, h w (by simp), List.flatMap_cons, List.cons_append, cut, if_pos ⟨rfl, rfl⟩, hrest,
      List.append_nil]

/-- The words of a row are the words it was made of. -/
theorem words_row {ws : List (List Char)} (hne : ws ≠ []) (hws : ∀ w ∈ ws, IsWord w) :
    words (row ws) = ws := by
  obtain ⟨w, ws, rfl⟩ := List.exists_cons_of_ne_nil hne
  rw [words, cut_row hws]

/-! ## Plain words -/

/-- Words that can stand for a name or, without its sign, for a number. -/
def IsPlain (w : List Char) : Prop :=
  (∃ c r, w = c :: r ∧ c ≠ '-' ∧ c ≠ '+') ∧ ∀ c ∈ w, c ≠ ' ' ∧ c ≠ '(' ∧ c ≠ ')'

/-- A numeral without its minus sign. -/
def unsigned : List Char → List Char
  | '-' :: cs => cs
  | cs => cs

/-- Whether a text may occur as a word: it is not cut, and its start is not taken for a sign. -/
def IsSound (w : List Char) : Prop := IsWord w ∧ ∃ c r, w = c :: r ∧ c ≠ '-' ∧ c ≠ '+'

/-- Nothing is cut inside parentheses that contain no others. -/
theorem cut_of_plain {d : ℕ} {cs : List Char} (h : ∀ c ∈ cs, c ≠ '(' ∧ c ≠ ')')
    (hd : d = 0 → ' ' ∉ cs) (rest : List Char) :
    cut d (cs ++ rest) = (cs ++ (cut d rest).1, (cut d rest).2) := by
  induction cs with
  | nil => rfl
  | cons c cs ih =>
    obtain ⟨⟨hopen, hclose⟩, hcs⟩ := List.forall_mem_cons.mp h
    have hblank : ¬ (c = ' ' ∧ d = 0) := by
      rintro ⟨rfl, h0⟩
      exact hd h0 (by simp)
    have hdepth : depthAfter d c = d := by simp [depthAfter, hopen, hclose]
    rw [List.cons_append, cut, if_neg hblank, hdepth,
      ih hcs fun h0 hmem => hd h0 (List.mem_cons_of_mem _ hmem)]
    rfl

theorem IsPlain.isSound {w : List Char} (h : IsPlain w) : IsSound w := by
  refine ⟨cut_of_plain (fun c hc => (h.2 c hc).2) fun _ hmem => ?_, h.1⟩
  exact (h.2 _ hmem).1 rfl

/-- A plain word has no minus sign to remove. -/
theorem IsPlain.unsigned_eq {w : List Char} (h : IsPlain w) : unsigned w = w := by
  obtain ⟨⟨c, r, rfl, hminus, -⟩, -⟩ := h
  rw [unsigned]
  rintro _ heq
  exact hminus (List.cons.inj heq).1

theorem IsPlain.head?_ne {w : List Char} (h : IsPlain w) : w.head? ≠ some '-' := by
  obtain ⟨⟨c, r, rfl, hminus, -⟩, -⟩ := h
  simpa using hminus

/-- A text between parentheses is a word if it has none itself. -/
theorem isSound_parenthesized {cs : List Char} (h : ∀ c ∈ cs, c ≠ '(' ∧ c ≠ ')') :
    IsSound ('(' :: cs ++ [')']) := by
  refine ⟨fun rest => ?_, '(', cs ++ [')'], rfl, by decide, by decide⟩
  have hinner : cut 1 (cs ++ ')' :: rest)
      = (cs ++ ')' :: (cut 0 rest).1, (cut 0 rest).2) := by
    rw [cut_of_plain h (by simp)]
    simp [cut, depthAfter]
  simp [cut, depthAfter, hinner]

/-! ## Pieces -/

/-- A signed piece of a written form. -/
structure Piece where
  negative : Bool
  words : List (List Char)

/-- The sign of a piece as a word. -/
def Piece.sign (p : Piece) : List Char := if p.negative then ['-'] else ['+']

/-- Whether the words of a piece can be told from its sign and from each other. -/
def Piece.IsSound (p : Piece) : Prop := p.words ≠ [] ∧ ∀ w ∈ p.words, Display.IsSound w

/-- Whether all words of a piece are plain. -/
def Piece.IsPlain (p : Piece) : Prop := p.words ≠ [] ∧ ∀ w ∈ p.words, Display.IsPlain w

theorem Piece.IsPlain.isSound {p : Piece} (h : p.IsPlain) : p.IsSound :=
  ⟨h.1, fun w hw => (h.2 w hw).isSound⟩

/-- The words of pieces that follow others. -/
def following (ps : List Piece) : List (List Char) := ps.flatMap fun p => p.sign :: p.words

/-- The text of pieces. The first one has a bare minus sign, the others have a sign as a word. -/
def spell : List Piece → List Char
  | [] => []
  | p :: ps => (if p.negative then ['-'] else []) ++ row (p.words ++ following ps)

/-- The pieces of a list of words, of which the first one goes on. -/
def group (negative : Bool) (started : List (List Char)) : List (List Char) → List Piece
  | [] => [⟨negative, started⟩]
  | w :: ws =>
    if w = ['+'] then ⟨negative, started⟩ :: group false [] ws
    else if w = ['-'] then ⟨negative, started⟩ :: group true [] ws
    else group negative (started ++ [w]) ws

/-- The pieces of a text. -/
def pieces : List Char → List Piece
  | '-' :: cs => group true [] (words cs)
  | cs => group false [] (words cs)

theorem following_cons (p : Piece) (ps : List Piece) :
    following (p :: ps) = p.sign :: (p.words ++ following ps) := by
  simp [following]

theorem following_append (ps qs : List Piece) :
    following (ps ++ qs) = following ps ++ following qs := List.flatMap_append

theorem Piece.isWord_sign (p : Piece) : IsWord p.sign := by
  intro rest
  cases h : p.negative <;> simp [sign, h, cut, depthAfter]

/-- A sign that is a word ends a piece and starts the next one. -/
theorem group_sign (negative : Bool) (started ws : List (List Char)) (p : Piece) :
    group negative started (p.sign :: ws) = ⟨negative, started⟩ :: group p.negative [] ws := by
  cases h : p.negative <;> simp [group, Piece.sign, h]

theorem group_append {negative : Bool} {started vs : List (List Char)}
    (h : ∀ w ∈ vs, IsSound w) (ws : List (List Char)) :
    group negative started (vs ++ ws) = group negative (started ++ vs) ws := by
  induction vs generalizing started with
  | nil => simp
  | cons v vs ih =>
    obtain ⟨⟨-, c, r, rfl, hminus, hplus⟩, hvs⟩ := List.forall_mem_cons.mp h
    rw [List.cons_append, group, if_neg (by simp [hplus]), if_neg (by simp [hminus]), ih hvs]
    simp

theorem group_following {p : Piece} {ps : List Piece} (h : ∀ q ∈ p :: ps, q.IsSound) :
    group p.negative [] (p.words ++ following ps) = p :: ps := by
  induction ps generalizing p with
  | nil => rw [group_append (h p (by simp)).2]; rfl
  | cons q ps ih =>
    have hrest := ih (List.forall_mem_cons.mp h).2
    rw [group_append (h p (by simp)).2, following_cons, group_sign, hrest]
    rfl

theorem isWord_of_mem_following {ps : List Piece} (h : ∀ p ∈ ps, p.IsSound) :
    ∀ w ∈ following ps, IsWord w := by
  intro w hw
  obtain ⟨p, hp, hw⟩ := List.mem_flatMap.mp hw
  rcases List.mem_cons.mp hw with rfl | hw
  · exact p.isWord_sign
  · exact ((h p hp).2 w hw).1

/-- Sound pieces without a minus sign in front do not start like one that has it. -/
theorem exists_row_eq {p : Piece} (hp : p.IsSound) (ws : List (List Char)) :
    ∃ c cs, row (p.words ++ ws) = c :: cs ∧ c ≠ '-' := by
  obtain ⟨w, vs, hws⟩ := List.exists_cons_of_ne_nil hp.1
  obtain ⟨-, c, r, rfl, hminus, -⟩ := hp.2 w (by simp [hws])
  exact ⟨c, _, by rw [hws, List.cons_append, row, List.cons_append], hminus⟩

/-- Pieces can be told from their text. -/
theorem pieces_spell {ps : List Piece} (hne : ps ≠ []) (hps : ∀ p ∈ ps, p.IsSound) :
    pieces (spell ps) = ps := by
  obtain ⟨p, ps, rfl⟩ := List.exists_cons_of_ne_nil hne
  obtain ⟨hp, hrest⟩ := List.forall_mem_cons.mp hps
  have hrow : words (row (p.words ++ following ps)) = p.words ++ following ps := by
    refine words_row (by simp [hp.1]) fun w hw => ?_
    rcases List.mem_append.mp hw with hw | hw
    · exact (hp.2 w hw).1
    · exact isWord_of_mem_following hrest w hw
  have hgroup := group_following hps
  cases hneg : p.negative with
  | true => simpa [spell, pieces, hneg, hrow] using hgroup
  | false =>
    obtain ⟨c, cs, hcs, hminus⟩ := exists_row_eq hp (following ps)
    have hpieces : pieces (c :: cs) = group false [] (words (c :: cs)) := by
      rw [pieces]
      rintro _ heq
      exact hminus (List.cons.inj heq).1
    rw [spell, hneg, if_neg Bool.false_ne_true, List.nil_append, hcs, hpieces, ← hcs, hrow,
      ← hneg, hgroup]

/-- What a text is spelled with. -/
theorem mem_spell {ps : List Piece} {c : Char} (h : c ∈ spell ps) :
    c = ' ' ∨ c = '-' ∨ c = '+' ∨ ∃ p ∈ ps, ∃ w ∈ p.words, c ∈ w := by
  have hrow : ∀ ws : List (List Char), c ∈ row ws → c = ' ' ∨ ∃ w ∈ ws, c ∈ w := by
    intro ws hc
    cases ws <;> grind [row]
  cases ps with
  | nil => cases h
  | cons p ps =>
    rcases List.mem_append.mp h with h | h
    · split_ifs at h <;> simp_all
    · rcases hrow _ h with rfl | ⟨w, hw, hc⟩
      · exact .inl rfl
      · rcases List.mem_append.mp hw with hw | hw
        · exact .inr (.inr (.inr ⟨p, by simp, w, hw, hc⟩))
        · obtain ⟨q, hq, hw⟩ := List.mem_flatMap.mp hw
          rcases List.mem_cons.mp hw with rfl | hw
          · unfold Piece.sign at hc
            split_ifs at hc <;> simp_all
          · exact .inr (.inr (.inr ⟨q, by simp [hq], w, hw, hc⟩))

theorem exists_spell_eq {p : Piece} (hp : p.IsSound) (hneg : p.negative = false)
    (ps : List Piece) : ∃ c cs, spell (p :: ps) = c :: cs ∧ c ≠ '-' := by
  obtain ⟨c, cs, hcs, hminus⟩ := exists_row_eq hp (following ps)
  exact ⟨c, cs, by rw [spell, hneg, if_neg Bool.false_ne_true, List.nil_append, hcs], hminus⟩

/-! ## Spelling -/

/-- The text of a sum without pieces. -/
def zeroPiece : Piece := ⟨false, [['0']]⟩

/-- The pieces that are written for a sum, which is not left empty. -/
def orZero (ps : List Piece) : List Piece := if ps.isEmpty then [zeroPiece] else ps

theorem orZero_nil : orZero [] = [zeroPiece] := rfl

theorem orZero_of_ne_nil {ps : List Piece} (h : ps ≠ []) : orZero ps = ps := by
  rw [orZero, if_neg (by simpa using h)]

theorem orZero_cons (p : Piece) (ps : List Piece) : orZero (p :: ps) = p :: ps := rfl

theorem orZero_ne_nil (ps : List Piece) : orZero ps ≠ [] := by
  cases ps <;> simp [orZero]

theorem orZero_append_ne (ps : List Piece) (p q : Piece) : orZero ps ++ [p] ≠ [q] := by
  intro h
  have hlen := congrArg List.length h
  rw [List.length_append, List.length_singleton, List.length_singleton] at hlen
  exact orZero_ne_nil ps (List.length_eq_zero_iff.mp (by omega))

theorem isPlain_zeroPiece : zeroPiece.IsPlain :=
  ⟨by simp [zeroPiece], by simp [zeroPiece, IsPlain]⟩

theorem of_mem_orZero {P : Piece → Prop} (hzero : P zeroPiece) {ps : List Piece}
    (h : ∀ p ∈ ps, P p) : ∀ p ∈ orZero ps, P p := by
  cases ps with
  | nil => simpa [orZero] using hzero
  | cons q ps => exact h

theorem spell_append {ps : List Piece} (hne : ps ≠ []) (h : ∀ p ∈ ps, p.words ≠ [])
    (qs : List Piece) : spell (ps ++ qs) = spell ps ++ (following qs).flatMap (' ' :: ·) := by
  obtain ⟨p, ps, rfl⟩ := List.exists_cons_of_ne_nil hne
  rw [List.cons_append, spell, following_append, ← List.append_assoc,
    row_append (by simp [h p (by simp)]), spell, List.append_assoc]

/-- A text of some words with a sign of its own. -/
def Spells {α : Type} [Scalar α] (t : α × String) (p : Piece) : Prop :=
  p.negative = Scalar.lt t.1 0 ∧ t.2.toList = row p.words ∧ p.words ≠ []

section Joined

variable {α : Type} [Scalar α]

/-- One more text in a joined one. -/
theorem toList_append_signed {t : α × String} {p : Piece} (h : Spells t p) (acc : String) :
    (acc ++ (if Scalar.lt t.1 0 then " - " else " + ") ++ t.2).toList
      = acc.toList ++ (following [p]).flatMap (' ' :: ·) := by
  obtain ⟨hneg, htext, hne⟩ := h
  obtain ⟨w, ws, hws⟩ := List.exists_cons_of_ne_nil hne
  rw [String.toList_append, String.toList_append, htext, following_cons, hws, Piece.sign, hneg]
  split_ifs <;> simp [following, row]

theorem toList_foldl_signed {ts : List (α × String)} {ps : List Piece}
    (h : List.Forall₂ Spells ts ps) (acc : String) :
    (ts.foldl (fun acc t => acc ++ (if Scalar.lt t.1 0 then " - " else " + ") ++ t.2) acc).toList
      = acc.toList ++ (following ps).flatMap (' ' :: ·) := by
  induction h generalizing acc with
  | nil => simp [following]
  | @cons t p ts ps ht _ ih =>
    have hsplit : following (p :: ps) = following [p] ++ following ps := following_append [p] ps
    rw [List.foldl_cons, ih, toList_append_signed ht, hsplit, List.flatMap_append,
      List.append_assoc]

/-- Joined texts spell their pieces, or zero. -/
theorem toList_joinSigned {ts : List (α × String)} {ps : List Piece}
    (h : List.Forall₂ Spells ts ps) : (joinSigned ts).toList = spell (orZero ps) := by
  cases h with
  | nil => simp [joinSigned, orZero, zeroPiece, spell, row, following]
  | @cons t p ts ps ht hts =>
    obtain ⟨hneg, htext, hne⟩ := ht
    rw [joinSigned, toList_foldl_signed hts, String.toList_append, htext, orZero_cons, spell,
      row_append hne, hneg]
    split_ifs <;> simp

/-- A constant that is appended has its minus sign read as the operator. -/
theorem toList_appendConstant {text constant : String} {ps qs : List Piece} (hps : ps ≠ [])
    (hwords : ∀ p ∈ ps, p.words ≠ []) (htext : text.toList = spell ps) (hqs : qs ≠ [])
    (hsound : ∀ q ∈ qs, q.IsSound) (hconstant : constant.toList = spell qs) :
    (appendConstant text constant).toList = spell (ps ++ qs) := by
  obtain ⟨q, qs, rfl⟩ := List.exists_cons_of_ne_nil hqs
  have hq := hsound q (by simp)
  obtain ⟨w, ws, hws⟩ := List.exists_cons_of_ne_nil hq.1
  have hspell : (following (q :: qs)).flatMap (' ' :: ·)
      = ' ' :: q.sign ++ ' ' :: row (q.words ++ following qs) := by
    rw [following_cons, hws]
    simp [row]
  rw [spell_append hps hwords, hspell, ← htext]
  cases hneg : q.negative with
  | true =>
    have h : constant.toList = '-' :: row (q.words ++ following qs) := by
      rw [hconstant, spell, hneg, if_pos rfl]
      rfl
    simp [appendConstant, h, Piece.sign, hneg]
  | false =>
    obtain ⟨c, cs, hcs, hminus⟩ := exists_spell_eq hq hneg qs
    have h : constant.toList = row (q.words ++ following qs) := by
      rw [hconstant, spell, hneg, if_neg Bool.false_ne_true]
      rfl
    have hfirst : constant.toList = c :: cs := hconstant.trans hcs
    rw [appendConstant]
    split
    · rename_i heq
      exact absurd (List.cons.inj (hfirst.symm.trans heq)).1 hminus
    · simp [h, Piece.sign, hneg]

end Joined

/-! ## Terms -/

variable (numeral : Extended → String)

/-- A number as a piece. -/
def numberPiece (v : Extended) : Piece :=
  ⟨(numeral v).toList.head? = some '-', [unsigned (numeral v).toList]⟩

theorem spell_numberPiece (v : Extended) : spell [numberPiece numeral v] = (numeral v).toList := by
  cases h : (numeral v).toList with
  | nil => simp [spell, numberPiece, h, unsigned, row, following]
  | cons c cs =>
    by_cases hc : c = '-'
    · simp [spell, numberPiece, h, hc, unsigned, row, following]
    · simp [spell, numberPiece, h, hc, unsigned, row, following]

theorem numberPiece_eq_zeroPiece_iff {v : Extended} :
    numberPiece numeral v = zeroPiece ↔ numeral v = "0" := by
  rw [← String.toList_inj]
  constructor
  · intro h
    rw [← spell_numberPiece, h]
    rfl
  · intro h
    rw [numberPiece, h]
    rfl

/-- The numerals that are plain words, but for the minus sign of negative numbers. -/
structure PlainNumerals : Prop where
  unsigned : ∀ v, IsPlain (unsigned (numeral v).toList)
  abs : ∀ v, IsPlain (numeral (Scalar.abs v)).toList

/-- A multiple of a symbol as a piece. -/
def multiplePiece (c : Extended) (symbol : List Char) : Piece :=
  ⟨Scalar.lt c 0, if isUnit c then [symbol] else [(numeral (Scalar.abs c)).toList, symbol]⟩

/-- The product of a parameter and a decision variable as a piece. -/
def productPiece (c : Extended) (parameter decision : List Char) : Piece :=
  ⟨Scalar.lt c 0, [parameter, decision]⟩

/-- The product of a text and a decision variable as a piece. -/
def groupPiece (text decision : List Char) : Piece := ⟨false, ['(' :: text ++ [')'], decision]⟩

theorem spells_productPiece (c : Extended) (parameter decision : String) :
    Spells (c, parameter ++ " " ++ decision)
      (productPiece c parameter.toList decision.toList) := by
  simp [Spells, productPiece, row]

theorem spells_groupPiece (text decision : String) :
    Spells ((1 : Extended), "(" ++ text ++ ") " ++ decision)
      (groupPiece text.toList decision.toList) := by
  have hsign : Scalar.lt (1 : Extended) 0 = false := by decide +kernel
  simp [Spells, groupPiece, row, hsign]

theorem isSound_productPiece (c : Extended) {parameter decision : List Char}
    (hp : IsPlain parameter) (hd : IsPlain decision) :
    (productPiece c parameter decision).IsSound :=
  ⟨by simp [productPiece], by simpa [productPiece] using ⟨hp.isSound, hd.isSound⟩⟩

theorem isSound_groupPiece {text decision : List Char} (htext : ∀ c ∈ text, c ≠ '(' ∧ c ≠ ')')
    (hd : IsPlain decision) : (groupPiece text decision).IsSound :=
  ⟨by simp [groupPiece], by
    simpa [groupPiece] using ⟨isSound_parenthesized htext, hd.isSound⟩⟩

theorem spells_signedTerm (c : Extended) (symbol : String) :
    Spells (signedTerm numeral c symbol) (multiplePiece numeral c symbol.toList) := by
  refine ⟨rfl, ?_, ?_⟩
  · rw [signedTerm, multiplePiece]
    split_ifs <;> simp [row]
  · rw [multiplePiece]
    split_ifs <;> simp

variable {numeral} (hnum : PlainNumerals numeral)
include hnum

theorem isPlain_numberPiece (v : Extended) : (numberPiece numeral v).IsPlain :=
  ⟨by simp [numberPiece], by simpa [numberPiece] using hnum.unsigned v⟩

theorem isPlain_multiplePiece (c : Extended) {symbol : List Char} (h : IsPlain symbol) :
    (multiplePiece numeral c symbol).IsPlain := by
  unfold multiplePiece Piece.IsPlain
  split_ifs
  · simpa using h
  · simpa using ⟨hnum.abs c, h⟩

end Display

open Display

variable (shown numeral : Extended → String)

namespace Uncertain

/-- The name that is written for the parameter at a position. -/
def nameOf (e : Uncertain Extended) (i : ℕ) : List Char :=
  (((e.nameAt i).getD .absent).asText shown).toList

/-- The pieces of the terms. -/
def termPieces (e : Uncertain Extended) : List Piece :=
  e.sorted.map fun t => multiplePiece numeral t.2 (e.nameOf shown t.1)

/-- Whether the constant is not negligible. -/
def ShowsConstant (e : Uncertain Extended) : Prop :=
  Scalar.le Scalar.displayTol (Scalar.abs e.constant) = true

instance (e : Uncertain Extended) : Decidable e.ShowsConstant := inferInstanceAs (Decidable (_ = _))

/-- The pieces that are written with a constant. -/
def pieces (e : Uncertain Extended) : List Piece :=
  if e.isConstant then [numberPiece numeral e.constant]
  else orZero (e.termPieces shown numeral)
    ++ if e.ShowsConstant then [numberPiece numeral e.constant] else []

variable {shown numeral} in
theorem pieces_of_nil {e : Uncertain Extended} (h : e.terms = []) :
    e.pieces shown numeral = [numberPiece numeral e.constant] := by
  simp [pieces, isConstant, h]

variable {shown numeral} in
theorem pieces_of_ne_nil {e : Uncertain Extended} (h : e.terms ≠ []) :
    e.pieces shown numeral = orZero (e.termPieces shown numeral)
      ++ if e.ShowsConstant then [numberPiece numeral e.constant] else [] := by
  simp [pieces, isConstant, h]

/-- Whether the names of all parameters are of a kind. -/
def Named (N : List Char → Prop) (e : Uncertain Extended) : Prop :=
  ∀ t ∈ e.terms, N (t.1.name.asText shown).toList

variable {shown} in
theorem Named.mono {N M : List Char → Prop} {e : Uncertain Extended} (h : e.Named shown N)
    (hNM : ∀ w, N w → M w) : e.Named shown M :=
  fun t ht => hNM _ (h t ht)

end Uncertain

namespace Mixed

/-- The piece of a term, none if its coefficient is negligible. -/
def termPiece (x : Decision Extended) (e : Uncertain Extended) : Option Piece :=
  match e.terms with
  | [] =>
    if Scalar.le (Scalar.abs e.constant) Scalar.zeroTol then none
    else some (multiplePiece numeral e.constant x.name.toList)
  | [(p, c)] =>
    if Scalar.le (Scalar.abs e.constant) Scalar.zeroTol && isUnit c then
      some (productPiece c (p.name.asText shown).toList x.name.toList)
    else some (groupPiece (e.render shown numeral true).toList x.name.toList)
  | _ => some (groupPiece (e.render shown numeral true).toList x.name.toList)

/-- Whether the constant is written after terms. -/
def ShowsConstant (e : Mixed Extended) : Prop :=
  e.constant.render shown numeral true ≠ "" ∧ e.constant.render shown numeral true ≠ "0"

instance (e : Mixed Extended) : Decidable (e.ShowsConstant shown numeral) :=
  inferInstanceAs (Decidable (_ ∧ _))

/-- The pieces of the terms. -/
def termPieces (e : Mixed Extended) : List Piece :=
  e.terms.filterMap fun t => termPiece shown numeral t.1 t.2

/-- The pieces that are written with a constant. -/
def pieces (e : Mixed Extended) : List Piece :=
  if e.terms.isEmpty then e.constant.pieces shown numeral
  else orZero (e.termPieces shown numeral)
    ++ if e.ShowsConstant shown numeral then e.constant.pieces shown numeral else []

variable {shown numeral} in
theorem pieces_of_nil {e : Mixed Extended} (h : e.terms = []) :
    e.pieces shown numeral = e.constant.pieces shown numeral := by
  simp [pieces, h]

variable {shown numeral} in
theorem pieces_of_ne_nil {e : Mixed Extended} (h : e.terms ≠ []) :
    e.pieces shown numeral = orZero (e.termPieces shown numeral)
      ++ if e.ShowsConstant shown numeral then e.constant.pieces shown numeral else [] := by
  simp [pieces, h]

/-- Whether the names of all parameters and decisions are of a kind. -/
def Named (N : List Char → Prop) (e : Mixed Extended) : Prop :=
  e.constant.Named shown N ∧ ∀ t ∈ e.terms, N t.1.name.toList ∧ t.2.Named shown N

variable {shown} in
theorem Named.mono {N M : List Char → Prop} {e : Mixed Extended} (h : e.Named shown N)
    (hNM : ∀ w, N w → M w) : e.Named shown M :=
  ⟨Uncertain.Named.mono h.1 hNM, fun t ht => ⟨hNM _ (h.2 t ht).1, (h.2 t ht).2.mono hNM⟩⟩

end Mixed

/-! ## Written forms of expressions in parameters -/

namespace Uncertain

variable {shown numeral} {e : Uncertain Extended}

/-- The pairs that are written are positions that occur, with the sums collected there. -/
theorem touched_of_mem_sorted {i : ℕ} {c : Extended} (h : (i, c) ∈ e.sorted) :
    i ∈ Accumulator.touched e.contributions ∧ c = Accumulator.sums e.contributions i := by
  have hmem : (i, c) ∈ e.collect := (List.mergeSort_perm _ _).mem_iff.mp h
  obtain ⟨j, hj, hji⟩ := List.mem_map.mp (collect_eq e ▸ hmem)
  obtain ⟨rfl, rfl⟩ := Prod.mk.inj hji
  exact ⟨List.mem_of_mem_filter hj, rfl⟩

variable (shown) in
/-- A collected parameter occurs in the expression, and one of its names is written. -/
theorem exists_name_of_mem_sorted {i : ℕ} {c : Extended} (h : (i, c) ∈ e.sorted) :
    ∃ t ∈ e.terms, t.1.index = i ∧ e.nameOf shown i = (t.1.name.asText shown).toList := by
  obtain ⟨x, hx, -⟩ := (Accumulator.mem_touched _).mp (touched_of_mem_sorted h).1
  obtain ⟨t, ht, hti⟩ := List.mem_map.mp hx
  have hsome : (e.terms.reverse.find? fun t => t.1.index == i).isSome = true :=
    List.find?_isSome.mpr ⟨t, List.mem_reverse.mpr ht, by simp [(Prod.mk.inj hti).1]⟩
  obtain ⟨p, hp⟩ := Option.isSome_iff_exists.mp hsome
  refine ⟨p, List.mem_reverse.mp (List.mem_of_find?_eq_some hp), ?_, ?_⟩
  · simpa using List.find?_some hp
  · rw [nameOf, nameAt, hp]
    rfl

theorem pieces_ne_nil (e : Uncertain Extended) : e.pieces shown numeral ≠ [] := by
  unfold pieces
  split_ifs <;> simp [orZero_ne_nil]

theorem ne_nil_of_mem_orZero {p : Piece} (h : p ∈ orZero (e.termPieces shown numeral)) :
    p.words ≠ [] := by
  refine of_mem_orZero (P := fun p => p.words ≠ []) isPlain_zeroPiece.1 (fun p hp => ?_) p h
  obtain ⟨t, -, rfl⟩ := List.mem_map.mp hp
  unfold multiplePiece
  split_ifs <;> simp

section

variable (hnum : PlainNumerals numeral)
include hnum

/-- The written form spells the pieces. -/
theorem toList_render : (e.render shown numeral true).toList = spell (e.pieces shown numeral) := by
  have hjoined : (joinSigned (e.sorted.map fun t =>
      signedTerm numeral t.2 (((e.nameAt t.1).getD .absent).asText shown))).toList
      = spell (orZero (e.termPieces shown numeral)) := by
    refine toList_joinSigned (List.forall₂_map_left_iff.mpr (List.forall₂_map_right_iff.mpr ?_))
    exact List.forall₂_same.mpr fun t _ => spells_signedTerm numeral t.2 _
  rw [render, pieces]
  by_cases hconstant : e.isConstant = true
  · rw [if_pos hconstant, if_pos hconstant, if_pos rfl, spell_numberPiece]
  rw [if_neg hconstant, if_neg hconstant, Bool.true_and]
  by_cases hshown : e.ShowsConstant
  · rw [if_pos hshown, if_pos (id hshown : Scalar.le _ _ = true)]
    refine toList_appendConstant (orZero_ne_nil _) (fun _ => ne_nil_of_mem_orZero) hjoined
      (List.cons_ne_nil _ _) ?_ (spell_numberPiece numeral _).symm
    simpa using (isPlain_numberPiece hnum _).isSound
  · rw [if_neg hshown, if_neg (id hshown : ¬ Scalar.le _ _ = true), List.append_nil]
    exact hjoined

variable (hnames : e.Named shown IsPlain)
include hnames

theorem isPlain_of_mem_termPieces {p : Piece} (h : p ∈ e.termPieces shown numeral) :
    p.IsPlain := by
  obtain ⟨⟨i, c⟩, hmem, rfl⟩ := List.mem_map.mp h
  obtain ⟨t, ht, -, hname⟩ := exists_name_of_mem_sorted shown hmem
  exact isPlain_multiplePiece hnum c (hname ▸ hnames t ht)

theorem isPlain_of_mem_pieces {p : Piece} (h : p ∈ e.pieces shown numeral) : p.IsPlain := by
  have hconstant := isPlain_numberPiece hnum e.constant
  have hterms : ∀ q ∈ orZero (e.termPieces shown numeral), q.IsPlain :=
    of_mem_orZero isPlain_zeroPiece fun _ => isPlain_of_mem_termPieces hnum hnames
  unfold pieces at h
  split_ifs at h
  · exact List.mem_singleton.mp h ▸ hconstant
  · rcases List.mem_append.mp h with h | h
    · exact hterms p h
    · exact List.mem_singleton.mp h ▸ hconstant
  · exact hterms p (by simpa using h)

/-- The pieces of a written form are those that were written. -/
theorem pieces_render :
    Display.pieces (e.render shown numeral true).toList = e.pieces shown numeral := by
  rw [toList_render hnum]
  exact pieces_spell (pieces_ne_nil e) fun p hp => (isPlain_of_mem_pieces hnum hnames hp).isSound

/-- Expressions in parameters are written without parentheses. -/
theorem not_paren_of_mem_render {c : Char} (h : c ∈ (e.render shown numeral true).toList) :
    c ≠ '(' ∧ c ≠ ')' := by
  rw [toList_render hnum] at h
  rcases mem_spell h with rfl | rfl | rfl | ⟨p, hp, w, hw, hc⟩
  · decide
  · decide
  · decide
  · exact (((isPlain_of_mem_pieces hnum hnames hp).2 w hw).2 c hc).2

end

end Uncertain

/-! ## Written forms of expressions in decision variables -/

namespace Mixed

variable {shown numeral}

variable (shown numeral) in
/-- The text of a term spells its piece, and there is one if the other is. -/
theorem spells_renderTerm (x : Decision Extended) (e : Uncertain Extended) :
    (renderTerm shown numeral x e = none ∧ termPiece shown numeral x e = none)
      ∨ ∃ t p, renderTerm shown numeral x e = some t ∧ termPiece shown numeral x e = some p
        ∧ Spells t p := by
  rcases hterms : e.terms with _ | ⟨⟨p, c⟩, _ | ⟨t, ts⟩⟩
  · simp only [renderTerm, termPiece, hterms]
    split_ifs
    · exact .inl ⟨rfl, rfl⟩
    · exact .inr ⟨_, _, rfl, rfl, spells_signedTerm numeral _ _⟩
  · simp only [renderTerm, termPiece, hterms]
    split_ifs
    · exact .inr ⟨_, _, rfl, rfl, spells_productPiece _ _ _⟩
    · exact .inr ⟨_, _, rfl, rfl, spells_groupPiece _ _⟩
  · simp only [renderTerm, termPiece, hterms]
    exact .inr ⟨_, _, rfl, rfl, spells_groupPiece _ _⟩

/-- A term that is not written has a negligible number for a coefficient. -/
theorem termPiece_eq_none {x : Decision Extended} {e : Uncertain Extended}
    (h : termPiece shown numeral x e = none) :
    e.terms = [] ∧ Scalar.le (Scalar.abs e.constant) Scalar.zeroTol = true := by
  unfold termPiece at h
  split at h
  · rename_i hterms
    split_ifs at h with hzero
    exact ⟨hterms, hzero⟩
  · split_ifs at h
  · cases h

/-- The three kinds of terms: a multiple of the variable, its product with a parameter, and its
product with a text. -/
theorem termPiece_cases {x : Decision Extended} {e : Uncertain Extended} {p : Piece}
    (h : termPiece shown numeral x e = some p) :
    (e.terms = [] ∧ Scalar.le (Scalar.abs e.constant) Scalar.zeroTol = false
      ∧ p = multiplePiece numeral e.constant x.name.toList)
    ∨ (∃ q c, e.terms = [(q, c)] ∧ isUnit c = true
      ∧ Scalar.le (Scalar.abs e.constant) Scalar.zeroTol = true
      ∧ p = productPiece c (q.name.asText shown).toList x.name.toList)
    ∨ e.terms ≠ [] ∧ p = groupPiece (e.render shown numeral true).toList x.name.toList := by
  unfold termPiece at h
  split at h
  · rename_i hterms
    split_ifs at h with hzero
    exact .inl ⟨hterms, Bool.eq_false_iff.mpr hzero, (Option.some.inj h).symm⟩
  · rename_i q c hterms
    split_ifs at h with hbare
    · obtain ⟨hzero, hunit⟩ := Bool.and_eq_true_iff.mp hbare
      exact .inr (.inl ⟨q, c, hterms, hunit, hzero, (Option.some.inj h).symm⟩)
    · exact .inr (.inr ⟨by simp [hterms], (Option.some.inj h).symm⟩)
  · rename_i hnil _
    exact .inr (.inr ⟨hnil, (Option.some.inj h).symm⟩)

variable (shown numeral) in
theorem forall₂_spells (ts : List (Decision Extended × Uncertain Extended)) :
    List.Forall₂ Spells (ts.filterMap fun t => renderTerm shown numeral t.1 t.2)
      (ts.filterMap fun t => termPiece shown numeral t.1 t.2) := by
  induction ts with
  | nil => exact .nil
  | cons t ts ih =>
    obtain ⟨htext, hpiece⟩ | ⟨s, p, htext, hpiece, hspells⟩ :=
      spells_renderTerm shown numeral t.1 t.2
    · simpa [htext, hpiece] using ih
    · simpa [htext, hpiece] using ⟨hspells, ih⟩

variable (hnum : PlainNumerals numeral) {e : Mixed Extended}
  (hnames : e.Named shown IsPlain)
include hnum hnames

theorem isSound_of_mem_termPieces {t : Decision Extended × Uncertain Extended} (ht : t ∈ e.terms)
    {p : Piece} (h : termPiece shown numeral t.1 t.2 = some p) : p.IsSound := by
  obtain ⟨hx, he⟩ := hnames.2 t ht
  obtain ⟨-, -, rfl⟩ | ⟨q, c, hterms, -, -, rfl⟩ | ⟨-, rfl⟩ := termPiece_cases h
  · exact (isPlain_multiplePiece hnum _ hx).isSound
  · exact isSound_productPiece c (he (q, c) (by simp [hterms])) hx
  · exact isSound_groupPiece (fun c => Uncertain.not_paren_of_mem_render hnum he) hx

theorem isSound_of_mem_orZero {p : Piece} (h : p ∈ orZero (e.termPieces shown numeral)) :
    p.IsSound := by
  refine of_mem_orZero isPlain_zeroPiece.isSound (fun p hp => ?_) p h
  obtain ⟨t, ht, hpiece⟩ := List.mem_filterMap.mp hp
  exact isSound_of_mem_termPieces hnum hnames ht hpiece

theorem isSound_of_mem_constant {p : Piece} (h : p ∈ e.constant.pieces shown numeral) :
    p.IsSound :=
  (Uncertain.isPlain_of_mem_pieces hnum hnames.1 h).isSound

/-- The written form spells the pieces. -/
theorem toList_render : (e.render shown numeral true).toList = spell (e.pieces shown numeral) := by
  have hjoined := toList_joinSigned (forall₂_spells shown numeral e.terms)
  have hconstant : (e.constant.render shown numeral true).toList
      = spell (e.constant.pieces shown numeral) := Uncertain.toList_render hnum
  rw [render, pieces]
  by_cases hnil : e.terms.isEmpty = true
  · rw [if_pos hnil, if_pos hnil, if_pos rfl, hconstant]
  rw [if_neg hnil, if_neg hnil]
  by_cases hshown : e.ShowsConstant shown numeral
  · rw [if_pos hshown, if_pos (by simpa [ShowsConstant] using hshown)]
    exact toList_appendConstant (orZero_ne_nil _)
      (fun p hp => (isSound_of_mem_orZero hnum hnames hp).1) hjoined
      (Uncertain.pieces_ne_nil _) (fun p hp => isSound_of_mem_constant hnum hnames hp) hconstant
  · rw [if_neg hshown, List.append_nil, if_neg (by simpa [ShowsConstant] using hshown)]
    exact hjoined

/-- The pieces of a written form are those that were written. -/
theorem pieces_render :
    Display.pieces (e.render shown numeral true).toList = e.pieces shown numeral := by
  rw [toList_render hnum hnames]
  refine pieces_spell ?_ fun p hp => ?_
  · unfold pieces
    split_ifs <;> simp [orZero_ne_nil, Uncertain.pieces_ne_nil]
  · unfold pieces at hp
    split_ifs at hp
    · exact isSound_of_mem_constant hnum hnames hp
    · rcases List.mem_append.mp hp with hp | hp
      · exact isSound_of_mem_orZero hnum hnames hp
      · exact isSound_of_mem_constant hnum hnames hp
    · exact isSound_of_mem_orZero hnum hnames (by simpa using hp)

/-- The constant part is written after terms unless it is a zero. -/
theorem showsConstant_iff :
    e.ShowsConstant shown numeral ↔ e.constant.pieces shown numeral ≠ [zeroPiece] := by
  have hpieces := Uncertain.pieces_render hnum hnames.1
  constructor
  · rintro ⟨-, hzero⟩ heq
    refine hzero (String.toList_inj.mp ?_)
    rw [Uncertain.toList_render hnum, heq]
    rfl
  · intro hne
    refine ⟨fun hempty => ?_, fun hzero => ?_⟩
    · -- no word of a piece is empty
      have hsingle : e.constant.pieces shown numeral = [⟨false, [[]]⟩] := by
        rw [← hpieces, hempty]
        rfl
      have hsound : Piece.IsSound ⟨false, [[]]⟩ :=
        isSound_of_mem_constant hnum hnames (by rw [hsingle]; simp)
      obtain ⟨-, c, r, hcons, -⟩ := hsound.2 [] (by simp)
      cases hcons
    · refine hne ?_
      rw [← hpieces, hzero]
      rfl

end Mixed

end RobustOpt
