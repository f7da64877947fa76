import RobustOpt.Text.Numeral
import RobustOpt.Scalar.Extended

/-!
# Literals

Plain data that callers hand to the library: nothing at all, truth values, whole numbers of any
size, scalars, texts and lists of these. Bounds, coefficients, preferences, names and registry
keys arrive as literals.

## Main definitions

* `Literal`: the values.
* `Literal.numeric?`: the exact numeric value of a number or truth value.
* `Literal.same`: equality across number types, so that `1`, `1.0` and `true` are one key.
* `Literal.asText`: the written form inside messages.
-/

namespace RobustOpt

inductive Literal (α : Type) where
  | absent
  | truth (b : Bool)
  | integer (i : Int)
  | real (x : α)
  | text (s : String)
  | list (items : List (Literal α))

namespace Literal

variable {α : Type}

instance : Inhabited (Literal α) := ⟨absent⟩

/-- The name of the kind of a literal in messages. -/
def kindName : Literal α → String
  | absent => "NoneType"
  | truth _ => "bool"
  | integer _ => "int"
  | real _ => "float"
  | text _ => "str"
  | list _ => "list"

/-- Whether the literal is a number. Truth values are not. -/
def isNumber : Literal α → Bool
  | integer _ | real _ => true
  | _ => false

/-- The exact value of a number or truth value. -/
def numeric? [Scalar α] : Literal α → Option Extended
  | truth b => some (.finite (if b then 1 else 0))
  | integer i => some (.finite i)
  | real x => some (Extended.ofScalar x)
  | _ => none

mutual

/-- Equality of literals. Numbers and truth values are equal if they have the same value; an
undefined number equals nothing. -/
def same [Scalar α] : Literal α → Literal α → Bool
  | absent, absent => true
  | text s, text t => s == t
  | list xs, list ys => sameAll xs ys
  | x, y =>
    match x.numeric?, y.numeric? with
    | some a, some b => Extended.eq a b
    | _, _ => false

/-- Equality of lists of literals, item by item. -/
def sameAll [Scalar α] : List (Literal α) → List (Literal α) → Bool
  | [], [] => true
  | x :: xs, y :: ys => same x y && sameAll xs ys
  | _, _ => false

end

instance [Scalar α] : BEq (Literal α) := ⟨same⟩

/-- Whether a literal can serve as a key. Lists cannot. -/
def isKey : Literal α → Bool
  | list _ => false
  | _ => true

/-- Whether a literal counts as true where a condition is expected. -/
def isTrue [Scalar α] : Literal α → Bool
  | absent => false
  | truth b => b
  | integer i => i ≠ 0
  | real x => !Scalar.isZero x
  | text s => s ≠ ""
  | list items => !items.isEmpty

/-- Whether a literal equals zero. -/
def isZero [Scalar α] (v : Literal α) : Bool := v.same (integer 0)

/-- A control character by its code, in two hexadecimal digits. -/
def escapeCode (c : Char) : List Char :=
  ['\\', 'x'] ++ Nat.toDigits 16 (c.toNat / 16) ++ Nat.toDigits 16 (c.toNat % 16)

/-- How a character is written between quotes. -/
def quoteChar (quote c : Char) : List Char :=
  if c = quote ∨ c = '\\' then ['\\', c]
  else if c = '\n' then ['\\', 'n'] else if c = '\t' then ['\\', 't']
  else if c = '\r' then ['\\', 'r']
  else if c.toNat < 32 ∨ c.toNat = 127 then escapeCode c else [c]

/-- A text between single quotes, or between double quotes if it holds single ones only. -/
def quoted (s : String) : String :=
  let cs := s.toList
  let quote := if cs.contains '\x27' && !cs.contains '\x22' then '\x22' else '\x27'
  String.ofList (quote :: cs.flatMap (quoteChar quote) ++ [quote])

mutual

/-- The written form of a literal as an item of a list: texts are quoted. -/
def itemText (shown : α → String) : Literal α → String
  | absent => "None"
  | truth b => if b then "True" else "False"
  | integer i => toString i
  | real x => shown x
  | text s => quoted s
  | list items => "[" ++ String.intercalate ", " (itemTexts shown items) ++ "]"

/-- The written forms of the items of a list. -/
def itemTexts (shown : α → String) : List (Literal α) → List String
  | [] => []
  | v :: vs => itemText shown v :: itemTexts shown vs

end

/-- The written form of a literal: a text stands for itself. -/
def asText (shown : α → String) : Literal α → String
  | text s => s
  | v => itemText shown v

end Literal

end RobustOpt
