import RobustOpt.LinearProgram.Simplex

/-!
# Branch and bound

Linear problems with whole-number requirements. A relaxed optimum that breaks a requirement is
split into two problems that exclude it; a problem whose relaxed optimum is no better than a
solution found already is dropped.

## Main definitions

* `LinearProblem.split`: the two problems around a value that is not whole.
* `LinearProblem.search`: depth-first search with the best solution so far.
* `LinearProblem.solve`: the outcome of a problem.
-/

namespace RobustOpt

namespace LinearProblem

/-- The first unknown that has to be whole and is not, with its value. -/
def fractional? (p : LinearProblem) (x : List Rat) : Option (Nat × Rat) :=
  ((List.range p.unknowns.length).find? fun i =>
    (p.unknowns[i]?.any Unknown.integer) && (x.getD i 0).den ≠ 1).map fun i => (i, x.getD i 0)

/-- The two problems in which unknown `i` is at most, or at least, a whole number next to `q`. -/
def split (p : LinearProblem) (i : Nat) (q : Rat) : LinearProblem × LinearProblem :=
  let n := p.unknowns.length
  let below : Row := ⟨Simplex.unitRow n i 1, false, q.floor⟩
  let above : Row := ⟨Simplex.unitRow n i (-1), false, -q.ceil⟩
  ({ p with rows := p.rows ++ [below] }, { p with rows := p.rows ++ [above] })

/-- Whether a relaxed value can improve on the best solution so far. -/
def improves (value : Rat) (best : Option (Rat × List Rat)) : Bool :=
  best.all fun b => decide (value < b.1)

/-- Work through open problems. `fuel` bounds the number of problems that are relaxed. -/
def search : Nat → List LinearProblem → Option (Rat × List Rat) → Option (Rat × List Rat)
  | 0, _, best => best
  | _, [], best => best
  | fuel + 1, p :: rest, best =>
    match Simplex.solve p with
    | .optimal value x =>
      if improves value best then
        match p.fractional? x with
        | none => search fuel rest (some (value, x))
        | some (i, q) =>
          let (below, above) := p.split i q
          search fuel (below :: above :: rest) best
      else search fuel rest best
    | _ => search fuel rest best

/-- The number of problems a search relaxes at most. -/
def searchBound : Nat := 20000

/-- The outcome of a problem. An unbounded relaxation has an unbounded whole-number problem
exactly if the latter has a point. -/
def solve (p : LinearProblem) : Outcome :=
  if p.unknowns.any Unknown.integer then
    match Simplex.solve p with
    | .infeasible => .infeasible
    | .unbounded =>
      match search searchBound [{ p with cost := p.cost.map fun _ => 0 }] none with
      | some _ => .unbounded
      | none => .infeasible
    | .optimal _ _ =>
      match search searchBound [p] none with
      | some (value, x) => .optimal value x
      | none => .infeasible
  else Simplex.solve p

end LinearProblem

end RobustOpt
