import RobustOpt.LinearProgram.Problem

/-!
# The simplex method

Exact solution of linear problems without whole-number requirements. Free unknowns are split into
differences of nonnegative ones, inequalities get slacks, and rows without a slack to start from
get artificial unknowns, which a first phase drives to zero. Pivots follow the rule of the least
index, under which no basis recurs.

## Main definitions

* `Simplex.Tableau`: rows, basis and reduced costs.
* `Simplex.Tableau.optimize`: pivot until no reduced cost is negative.
* `Simplex.solve`: both phases.
-/

namespace RobustOpt

namespace Simplex

/-- Rows and reduced costs carry the right side in their last position. -/
structure Tableau where
  width : Nat
  rows : Array (Array Rat)
  basis : Array Nat
  cost : Array Rat

namespace Tableau

/-- The right side of a row. -/
def right (t : Tableau) (row : Array Rat) : Rat := row.getD t.width 0

/-- Add a multiple of one row to another. -/
def addMultiple (row : Array Rat) (q : Rat) (other : Array Rat) : Array Rat :=
  if q = 0 then row else row.zipWith (fun x y => x + q * y) other

/-- Make column `c` basic in row `r`. -/
def pivot (t : Tableau) (r c : Nat) : Tableau :=
  let source := t.rows.getD r #[]
  let unit := source.map (· / source.getD c 0)
  let eliminate := fun (row : Array Rat) => addMultiple row (-(row.getD c 0)) unit
  { t with
    rows := t.rows.mapIdx fun i row => if i = r then unit else eliminate row
    basis := t.basis.setIfInBounds r c
    cost := eliminate t.cost }

/-- The least permitted column with a negative reduced cost. -/
def entering (t : Tableau) (permitted : Nat → Bool) : Option Nat :=
  (List.range t.width).find? fun j => permitted j && decide (t.cost.getD j 0 < 0)

/-- The rows that limit the growth of column `c`, with their ratios. -/
def candidates (t : Tableau) (c : Nat) : List (Nat × Rat) :=
  (List.range t.rows.size).filterMap fun i =>
    let row := t.rows.getD i #[]
    let a := row.getD c 0
    if 0 < a then some (i, t.right row / a) else none

/-- The limiting row with the least ratio; of equal ones the row of the least basic column. -/
def leaving (t : Tableau) (c : Nat) : Option Nat :=
  ((t.candidates c).foldl (fun best p =>
    match best with
    | none => some p
    | some b =>
      if p.2 < b.2 ∨ (p.2 = b.2 ∧ t.basis.getD p.1 0 < t.basis.getD b.1 0) then some p
      else some b) none).map Prod.fst

/-- Pivot while a permitted column has a negative reduced cost. The answer says whether the
problem is bounded. `fuel` bounds the number of pivots. -/
def optimize (permitted : Nat → Bool) : Nat → Tableau → Tableau × Bool
  | 0, t => (t, true)
  | fuel + 1, t =>
    match t.entering permitted with
    | none => (t, true)
    | some c =>
      match t.leaving c with
      | none => (t, false)
      | some r => optimize permitted fuel (t.pivot r c)

/-- There are fewer bases than sets of columns. -/
def pivotBound (t : Tableau) : Nat := Nat.pow 2 t.width

/-- Replace the costs by those of `cost` reduced by the basis. -/
def withCost (t : Tableau) (cost : Array Rat) : Tableau :=
  let reduced := (List.range t.rows.size).foldl
    (fun acc i => addMultiple acc (-(cost.getD (t.basis.getD i 0) 0)) (t.rows.getD i #[])) cost
  { t with cost := reduced }

/-- Exchange basic columns from `first` on for earlier ones where the row allows it. -/
def expel (t : Tableau) (first : Nat) : Tableau :=
  (List.range t.rows.size).foldl (fun t i =>
    if first ≤ t.basis.getD i 0 then
      match (List.range first).find? fun j => decide ((t.rows.getD i #[]).getD j 0 ≠ 0) with
      | some j => t.pivot i j
      | none => t
    else t) t

/-- The value of a column in the basic solution. -/
def value (t : Tableau) (c : Nat) : Rat :=
  match (List.range t.rows.size).find? fun i => t.basis.getD i 0 == c with
  | some i => t.right (t.rows.getD i #[])
  | none => 0

end Tableau

/-- The columns of the unknowns: a nonnegative one has one column, a free one has two. -/
def expand (unknowns : List LinearProblem.Unknown) (coefficients : List Rat) : List Rat :=
  (unknowns.zip coefficients).flatMap fun p => if p.1.nonneg then [p.2] else [p.2, -p.2]

/-- The values of the unknowns from those of their columns. -/
def contract : List LinearProblem.Unknown → List Rat → List Rat
  | [], _ => []
  | u :: us, xs =>
    if u.nonneg then xs.headD 0 :: contract us (xs.drop 1)
    else (xs.headD 0 - (xs.drop 1).headD 0) :: contract us (xs.drop 2)

/-- A unit vector times `q`. -/
def unitRow (size position : Nat) (q : Rat) : List Rat :=
  (List.range size).map fun j => if j = position then q else 0

/-- The tableau of the rows. Every row with a negative bound is negated; it starts from its slack
if the slack still has coefficient one, and from an artificial column otherwise. The answer holds
the number of columns that are not artificial. -/
def start (p : LinearProblem) : Tableau × Nat :=
  let bare := (expand p.unknowns p.cost).length
  let count := p.rows.length
  let slacks := (p.rows.filter fun r => !r.equality).length
  let real := bare + slacks
  let width := real + count
  let step := fun (acc : List (Array Rat) × List Nat × Nat × Nat) (r : LinearProblem.Row) =>
    let (rows, basis, slack, i) := acc
    let coefficients := expand p.unknowns r.coefficients
    let flip : Rat := if r.bound < 0 then -1 else 1
    let slackPart := if r.equality then List.replicate slacks 0 else unitRow slacks slack flip
    let row := coefficients.map (flip * ·) ++ slackPart ++ unitRow count i 1 ++ [flip * r.bound]
    let basic := if !r.equality && flip = 1 then bare + slack else real + i
    (rows ++ [row.toArray], basis ++ [basic], if r.equality then slack else slack + 1, i + 1)
  let (rows, basis, _, _) := p.rows.foldl step ([], [], 0, 0)
  (⟨width, rows.toArray, basis.toArray, #[]⟩, real)

/-- Solve a linear problem, disregarding whole-number requirements. Repeated rows count once. -/
def solve (p : LinearProblem) : LinearProblem.Outcome :=
  let (t, real) := start { p with rows := p.rows.eraseDups }
  let phaseOne := (List.range (t.width + 1)).map fun j =>
    if real ≤ j ∧ j < t.width then (1 : Rat) else 0
  let t := t.withCost phaseOne.toArray
  let (t, _) := t.optimize (fun _ => true) t.pivotBound
  if t.right t.cost ≠ 0 then .infeasible
  else
    let t := t.expel real
    let cost := expand p.unknowns p.cost
    let phaseTwo := cost ++ List.replicate (t.width + 1 - cost.length) 0
    let t := t.withCost phaseTwo.toArray
    match t.optimize (· < real) t.pivotBound with
    | (_, false) => .unbounded
    | (t, true) =>
      let point := contract p.unknowns ((List.range cost.length).map t.value)
      .optimal (LinearProblem.inner p.cost point) point

end Simplex

end RobustOpt
