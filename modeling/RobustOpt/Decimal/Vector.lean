import RobustOpt.Decimal.Rounded

/-!
# The written form of vectors

The entries of a vector stand between brackets, all in positional or all in scientific notation,
with at most eight digits after the point, and padded to a common number of places before and
after it. Fractions are padded with blanks in positional notation and with zeros in scientific
notation.

## Main definitions

* `VectorText.isScientific`: when scientific notation is used.
* `Binary64.vectorText`: the written form of a list of doubles.
-/

namespace RobustOpt

namespace VectorText

/-- The number of digits after the point is at most this. -/
def precision : Nat := 8

/-- The decimal of a positive double with the fewest digits that read back, or with as many
digits as fit before `least`. -/
def digitsFrom (least : Int → Int) (x : Float) : Option (Bool × Decimal) :=
  match Binary64.decode x with
  | .finite negative m e =>
    if m = 0 then some (negative, ⟨0, 0⟩)
    else
      let d := Decimal.shortest m e
      let q := Binary64.scaled m e
      let cut := least (Decimal.magnitude q.num.natAbs q.den)
      some (negative, if cut ≤ d.exponent then d
        else Decimal.trimZeros 400 ⟨(Decimal.roundTo q cut).natAbs, cut⟩)
  | _ => none

/-- The characters before and after the point in positional notation. -/
def positional (x : Float) : List Char × List Char :=
  match digitsFrom (fun _ => -precision) x with
  | none => ([], [])
  | some (negative, d) =>
    let sign := if negative then ['-'] else []
    let ds := Decimal.digits d.coefficient
    if 0 ≤ d.exponent then (sign ++ ds ++ List.replicate d.exponent.toNat '0', [])
    else
      let places := (-d.exponent).toNat
      let padded := List.replicate (places + 1 - ds.length) '0' ++ ds
      (sign ++ padded.take (padded.length - places), padded.drop (padded.length - places))

/-- The characters before and after the point and the exponent in scientific notation. -/
def scientific (x : Float) : List Char × List Char × List Char :=
  match digitsFrom (fun e => e - precision) x with
  | none => ([], [], [])
  | some (negative, d) =>
    let sign := if negative then ['-'] else []
    let ds := Decimal.digits d.coefficient
    let exponent := if d.coefficient = 0 then 0 else d.exponent + ds.length - 1
    (sign ++ ds.take 1, ds.drop 1, (Layout.exact.exponentText exponent).toList)

/-- Scientific notation is used for magnitudes of 10 ^ 8 and more, for magnitudes below 0.0001,
and if magnitudes differ by more than a factor of 1000. -/
def isScientific (xs : List Float) : Bool :=
  let magnitudes := xs.filterMap fun x => (Binary64.toRat? (Float.abs x)).filter (· ≠ 0)
  match magnitudes with
  | [] => false
  | q :: qs =>
    let most := qs.foldl (fun a b => if a < b then b else a) q
    let least := qs.foldl (fun a b => if b < a then b else a) q
    100000000 ≤ most || least < 1 / 10000 || 1000 < most / least

/-- Pad characters with blanks in front. -/
def padFront (width : Nat) (cs : List Char) : List Char :=
  List.replicate (width - cs.length) ' ' ++ cs

/-- Pad characters at the end. -/
def padBack (c : Char) (width : Nat) (cs : List Char) : List Char :=
  cs ++ List.replicate (width - cs.length) c

/-- The length of the longest list. -/
def longest (css : List (List Char)) : Nat := (css.map List.length).foldl max 0

/-- The texts of the entries, aligned at the point; special values are aligned on the right. -/
def entries (xs : List Float) : List String :=
  let special := fun x => (Binary64.toRat? x).isNone
  let finite := xs.filter fun x => !special x
  let scientificForm := isScientific xs
  let parts := fun x => if scientificForm then scientific x else
    let p := positional x
    (p.1, p.2, [])
  let places := longest (finite.map fun x => (parts x).2.1)
  let exponents := longest (finite.map fun x => (parts x).2.2)
  let behind := if scientificForm then exponents + 1 + places else places
  let widest := longest ((xs.filter special).map fun x => (Binary64.shown x).toList)
  let before := max (longest (finite.map fun x => (parts x).1)) (widest - (behind + 1))
  xs.map fun x => String.ofList <|
    if special x then padFront (before + behind + 1) (Binary64.shown x).toList
    else
      let (whole, fraction, exponent) := parts x
      if scientificForm then
        padFront before whole ++ ['.'] ++ padBack '0' places fraction ++ ['e'] ++ exponent
      else padFront before whole ++ ['.'] ++ padBack ' ' places fraction

/-- A line holds fewer characters than this, brackets included. -/
def lineWidth : Nat := 75

/-- Remove the blanks at the end. -/
def trimEnd (cs : List Char) : List Char := (cs.reverse.dropWhile (· = ' ')).reverse

/-- Words joined by blanks and broken into lines. The first argument is the present line, whose
first character stands for the bracket or for the blank below it. A word that begins a line is
never moved to the next one. -/
def fill : List Char → List (List Char) → List Char
  | line, [] => line
  | line, word :: rest =>
    let wraps := lineWidth ≤ line.length + word.length && 1 < line.length
    let whole := if wraps then ' ' :: word else line ++ word
    let before := if wraps then trimEnd line ++ ['\n'] else []
    before ++ fill (if rest.isEmpty then whole else whole ++ [' ']) rest

end VectorText

/-- The written form of a list of doubles. -/
def Binary64.vectorText (xs : List Float) : String :=
  "[" ++ String.ofList ((VectorText.fill [' '] ((VectorText.entries xs).map String.toList)).drop 1)
    ++ "]"

end RobustOpt
