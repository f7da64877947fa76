/-!
# Phases of a resolution

An uncertainty set takes part in a solve through five phases, in this order. A set declares the
phases it implements and is asked for no other one.

## Main definitions

* `Phase`: the phases.
* `Phase.duty`: what a set is asked to do in a phase.
-/

namespace RobustOpt

inductive Phase where
  /-- Once per uncertain constraint of the set. -/
  | register
  /-- Once per solve, after all registrations. -/
  | setup
  /-- Once, before the first solve of the master. -/
  | reform
  /-- In every round of cuts. -/
  | cut
  /-- Once at optimality, if scenarios were requested. -/
  | scenario
deriving DecidableEq, Repr

namespace Phase

def all : List Phase := [register, setup, reform, cut, scenario]

def name : Phase → String
  | register => "REGISTER"
  | setup => "SETUP"
  | reform => "REFORM"
  | cut => "CUT"
  | scenario => "SCENARIO"

/-- The task of a phase, as named in messages. -/
def duty : Phase → String
  | register => "register_constraint"
  | setup => "setup_set"
  | reform => "generate_reform"
  | cut => "generate_cut"
  | scenario => "generate_scenario"

def ofName? (s : String) : Option Phase := all.find? fun p => p.name == s

theorem mem_all (p : Phase) : p ∈ all := by cases p <;> simp [all]

@[simp] theorem ofName?_name (p : Phase) : ofName? p.name = some p := by cases p <;> rfl

end Phase

end RobustOpt
