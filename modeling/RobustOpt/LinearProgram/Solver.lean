import RobustOpt.Fault
import RobustOpt.LinearProgram.Branching

/-!
# Solvers

Linear problems are handed to a solver, which answers with an outcome or fails. The library brings
a solver of its own; a resolution may use any other one in its place.

## Main definitions

* `Solver`: what a solver answers, problem by problem.
* `Solver.builtin`: the solver of the library.
-/

namespace RobustOpt

/-- The answer to each problem, or the fault with which the solver fails. -/
abbrev Solver (α : Type) := LinearProblem → Except (Fault α) LinearProblem.Outcome

/-- The solver of the library, which never fails. -/
def Solver.builtin {α : Type} : Solver α := fun p => .ok p.solve

end RobustOpt
