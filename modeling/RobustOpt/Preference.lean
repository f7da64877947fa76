import RobustOpt.Fault

/-!
# Preferences

Named options of a solve that are passed unchanged to every uncertainty set.

## Main definitions

* `Preferences`: names with their values.
* `Preferences.get`: the value of a name, or a default.
-/

namespace RobustOpt

/-- Names with their values, each name once. -/
abbrev Preferences (α : Type) := List (String × Literal α)

namespace Preferences

variable {α : Type}

/-- The preference for cutting planes over reformulation. -/
def preferCuts : String := "prefer_cuts"

/-- The violation above which a constraint is cut off. -/
def cutTol : String := "cut_tol"

/-- The solver of adversarial problems. -/
def adversarySolver : String := "adversary_solver"

/-- The value of a name, `default` if it has none. -/
def get (prefs : Preferences α) (key : String) (default : Literal α) : Literal α :=
  ((prefs.find? fun p => p.1 == key).map Prod.snd).getD default

/-- The names in alphabetical order. -/
def sortedKeys (prefs : Preferences α) : List String :=
  (prefs.map Prod.fst).mergeSort fun s t => decide (s ≤ t)

end Preferences

end RobustOpt
