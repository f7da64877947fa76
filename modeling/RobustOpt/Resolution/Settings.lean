import RobustOpt.Fault

/-!
# Settings of a resolution

## Main definitions

* `Settings`: solver, limit on the rounds of cuts, and what to report.
* `Settings.build`: settings from literals, absent options taking their defaults.
* `Settings.rounds`: the limit as a number of rounds, capped if no number reaches it.
-/

namespace RobustOpt

structure Settings (α : Type) where
  solver : Literal α
  solverArguments : List (String × Literal α)
  maxRounds : Literal α
  reportScenarios : Literal α
  verbose : Literal α

namespace Settings

variable {α : Type} [Scalar α]

/-- The default limit on the rounds of cuts. -/
def defaultRounds : Nat := 100

def defaults : Settings α := ⟨.absent, [], .integer defaultRounds, .truth false, .truth false⟩

/-- Set an option by name; other names are refused. -/
def setOption (s : Settings α) (option : String × Literal α) :
    Except (Fault α) (Settings α) :=
  match option with
  | ("solver", v) => .ok { s with solver := v }
  | ("max_iter", v) => .ok { s with maxRounds := v }
  | ("report_scenarios", v) => .ok { s with reportScenarios := v }
  | ("verbose", v) => .ok { s with verbose := v }
  | _ => .error .wrongKind

/-- Settings from named options and the arguments of the solver, which have to be a table of
names. The limit must not be negative; an undefined one is accepted. -/
def build (options : List (String × Literal α))
    (solverArguments : Option (List (String × Literal α))) : Except (Fault α) (Settings α) := do
  let s ← options.foldlM setOption defaults
  if ← s.maxRounds.less (.integer 0) then throw .negativeRounds
  match solverArguments with
  | some named => return { s with solverArguments := named }
  | none => throw .wrongKind

/-- A cap on the rounds of a resolution whose limit is infinite or undefined. No number of rounds
reaches such a limit, so the resolution would go on as long as there are cuts. Here it ends after
this many rounds, as if that were its limit. -/
def unlimitedRounds : Nat := Nat.pow 2 64

/-- The least number of rounds that reaches a finite limit, and for other limits the cap
`unlimitedRounds`. -/
def rounds (s : Settings α) : Nat :=
  match s.maxRounds.numeric? with
  | some (.finite q) => q.ceil.toNat
  | _ => unlimitedRounds

/-- The level of the summary record. -/
def summaryLevel (s : Settings α) : String := if s.verbose.isTrue then "INFO" else "DEBUG"

end Settings

end RobustOpt
