import RobustOpt.Text.Character
import RobustOpt.Scalar.Basic

/-!
# Reading numerals

A numeral is an optional sign followed by an infinity, a not-a-number word or a decimal with an
optional fraction and exponent. Blanks may surround it and an underscore may stand between two
digits.

## Main definitions

* `Numeral`: what a numeral stands for.
* `Numeral.read?`: the numeral a text denotes, if it is one.
-/

namespace RobustOpt

/-- What a numeral stands for; the sign is kept apart because zero may carry one. -/
inductive Numeral where
  | undefined
  | infinite (negative : Bool)
  | finite (negative : Bool) (magnitude : Rat)
deriving DecidableEq, Repr

namespace Numeral

/-- Remove the underscores, each of which has to stand between two digits. -/
def dropUnderscores : Option Char → List Char → Option (List Char)
  | _, [] => some []
  | before, '_' :: rest =>
    let digitBefore := before.any Text.isDigit
    let digitAfter := rest.head?.any Text.isDigit
    if digitBefore && digitAfter then dropUnderscores (some '_') rest else none
  | _, c :: rest => (dropUnderscores (some c) rest).map (c :: ·)

/-- The digits at the front and what follows them. -/
def spanDigits : List Char → List Nat × List Char
  | [] => ([], [])
  | c :: rest =>
    match Text.digitValue? c with
    | some d => let (ds, after) := spanDigits rest; (d :: ds, after)
    | none => ([], c :: rest)

def ofDigits (ds : List Nat) : Nat := ds.foldl (fun n d => 10 * n + d) 0

/-- Split a sign off. -/
def sign : List Char → Bool × List Char
  | '-' :: rest => (true, rest)
  | '+' :: rest => (false, rest)
  | cs => (false, cs)

/-- The exponent part of a decimal: nothing, or `e` and a whole number. -/
def exponent? : List Char → Option Int
  | [] => some 0
  | c :: rest =>
    if c = 'e' ∨ c = 'E' then
      let (negative, cs) := sign rest
      match spanDigits cs with
      | ([], _) => none
      | (ds, []) => some (if negative then -(ofDigits ds : Int) else ofDigits ds)
      | _ => none
    else none

/-- The number `coefficient * 10 ^ exponent`. Beyond ten thousand places it is as good as
infinite, or zero. -/
def scaled (negative : Bool) (coefficient : Nat) (exponent : Int) : Numeral :=
  if coefficient = 0 then finite negative 0
  else if 10000 < exponent then infinite negative
  else if exponent < -10000 - (Nat.toDigits 10 coefficient).length then finite negative 0
  else if 0 ≤ exponent then finite negative ((coefficient * Nat.pow 10 exponent.toNat : Nat) : Rat)
  else finite negative (mkRat coefficient (Nat.pow 10 (-exponent).toNat))

/-- Digits, optionally a point and more digits, optionally an exponent. -/
def decimal? (negative : Bool) (cs : List Char) : Option Numeral :=
  let (whole, rest) := spanDigits cs
  let (fraction, rest) := match rest with
    | '.' :: after => spanDigits after
    | _ => ([], rest)
  if whole.isEmpty && fraction.isEmpty then none
  else
    (exponent? rest).map fun e =>
      scaled negative (ofDigits (whole ++ fraction)) (e - fraction.length)

/-- The words for special values, in any case. -/
def special? (negative : Bool) (cs : List Char) : Option Numeral :=
  let word := String.ofList (cs.map Char.toLower)
  if word = "inf" ∨ word = "infinity" then some (infinite negative)
  else if word = "nan" then some undefined
  else none

/-- The numeral a text denotes. -/
def read? (text : String) : Option Numeral := do
  let plain ← dropUnderscores none (Text.trim text.toList)
  let (negative, cs) := sign plain
  (special? negative cs).orElse fun _ => decimal? negative cs

/-- The scalar nearest to a numeral. -/
def toScalar {α : Type} [Scalar α] : Numeral → α
  | undefined => Scalar.nan
  | infinite negative => if negative then -Scalar.infinity else Scalar.infinity
  | finite negative q => if negative then -Scalar.ofRat q else Scalar.ofRat q

end Numeral

end RobustOpt
