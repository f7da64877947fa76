import RobustOpt.UncertaintySet.CuttingPlane

/-!
# Budget sets

Every parameter stays within its deviation of its nominal value, and the deviations used, each
relative to its maximum, sum up to at most a budget.

## Main definitions

* `Grid`: numeric data of any shape, as callers give it.
* `Budget`: the budget with the nominal values and deviations.
* `Budget.worstCase`: spend the budget on the largest contributions first.
* `Budget.reformulate`: the constraints equivalent to one side.
-/

namespace RobustOpt

/-- Numeric data with the sizes of its dimensions. -/
structure Grid (α : Type) where
  shape : List Nat
  entries : List α

namespace Grid

variable {α : Type} [Scalar α]

/-- An entry of numeric data; an absent one is undefined. -/
def entryOf : Literal α → Except (Fault α) α
  | .absent => .ok Scalar.nan
  | v => v.toScalar

/-- Join grids of one shape along a new first dimension. -/
def stack : List (Grid α) → Except (Fault α) (Grid α)
  | [] => .ok ⟨[0], []⟩
  | g :: gs =>
    if gs.all fun h => h.shape == g.shape then
      .ok ⟨(gs.length + 1) :: g.shape, (g :: gs).flatMap Grid.entries⟩
    else .error .badValue

mutual

/-- The numeric data of a literal; lists must be rectangular. -/
def ofLiteral : Literal α → Except (Fault α) (Grid α)
  | .list items => do stack (← ofLiterals items)
  | v => do return ⟨[], [← entryOf v]⟩

def ofLiterals : List (Literal α) → Except (Fault α) (List (Grid α))
  | [] => .ok []
  | v :: vs => do return (← ofLiteral v) :: (← ofLiterals vs)

end

end Grid

structure Budget (α : Type) where
  gamma : α
  givenNominal : Option (Grid α)
  givenDeviation : Option (Grid α)
  /-- Nominal values and deviations of the last setup. -/
  data : Option (List α × List α)

namespace Budget

variable {α : Type} [Scalar α]

mutual

/-- Whether some entry of numeric data is negative. -/
def anyNegative : Literal α → Except (Fault α) Bool
  | .list items => anyNegativeIn items
  | v => v.less (.integer 0)

def anyNegativeIn : List (Literal α) → Except (Fault α) Bool
  | [] => .ok false
  | v :: vs => do
    let here ← anyNegative v
    let later ← anyNegativeIn vs
    return here || later

end

/-- A set with a budget that is not negative, and optionally nominal values and deviations, the
latter not negative. -/
def build (gamma nominal deviation : Literal α) : Except (Fault α) (Budget α) := do
  if ← gamma.less (.integer 0) then throw .negativeBudget
  match deviation with
  | .absent => pure ()
  | d => if ← anyNegative d then throw .negativeDeviation
  let gamma ← gamma.toScalar
  let given := fun (v : Literal α) => match v with
    | .absent => pure none
    | v => some <$> Grid.ofLiteral v
  return ⟨gamma, ← given nominal, ← given deviation, none⟩

/-- The midpoints of the bounds. -/
def midpoints (lower upper : List α) : List α :=
  List.zipWith (fun l u => Scalar.half (l + u)) lower upper

/-- The half-widths of the bounds. -/
def halfWidths (lower upper : List α) : List α :=
  List.zipWith (fun l u => Scalar.half (u - l)) lower upper

/-- One value per parameter: the given ones, which must fit, or the default ones. -/
def checkDimension (name : String) (size : Nat) (g : Grid α) : Except (Fault α) (List α) :=
  if g.shape = [size] then .ok g.entries else .error (.dimension name size g.shape)

/-- The first parameter among `used` without a finite nominal value and deviation. -/
def unboundedParameter? (used : List Nat) (nominal deviation : List α) : Option Nat :=
  used.find? fun i =>
    !(Scalar.isFinite (nominal.getD i 0) && Scalar.isFinite (deviation.getD i 0))

/-- Take nominal values and deviations from the given data or the bounds of a model. Those of
parameters that occur in a registered constraint must be finite. -/
def setup (kindName : String) (model : Model α) (forms : List (SparseMatrix α)) :
    Action (Budget α) (Fault α) Unit := do
  let s ← get
  let size := model.parameters.length
  let (lower, upper) := model.parameterBounds
  let default := fun (xs : List α) => Grid.mk [size] xs
  let nominal ← checkDimension "nominal" size
    (s.givenNominal.getD (default (midpoints lower upper)))
  let deviation ← checkDimension "deviation" size
    (s.givenDeviation.getD (default (halfWidths lower upper)))
  match unboundedParameter? (Bilinear.usedParameters forms) nominal deviation with
  | some i =>
    throw (.unboundedParameter kindName ((model.parameters[i]?.map Parameter.name).getD .absent))
  | none => set { s with data := some (nominal, deviation) }

/-- The contribution of a parameter to the worst case at full deviation. -/
def contribution (g deviation : α) : α :=
  if Scalar.isZero g then 0 else deviation * Scalar.abs g

/-- Positions by decreasing contribution, equal ones in order, undefined ones last. -/
def ranking (contributions : List α) : List Nat :=
  (((List.range contributions.length).zip contributions).mergeSort fun s t =>
    if Scalar.isNaN s.2 then Scalar.isNaN t.2
    else Scalar.isNaN t.2 || Scalar.le t.2 s.2).map Prod.fst

/-- Spend the budget along a ranking: a parameter uses its whole deviation or what is left of the
budget, until nothing is left or nothing is gained. -/
def spend (g contributions : List α) : List Nat → α → List α → List α
  | [], _, z => z
  | i :: rest, budget, z =>
    if Scalar.le budget 0 || Scalar.le (contributions.getD i 0) 0 then z
    else
      let step := Scalar.min 1 budget
      spend g contributions rest (budget - step) (z.set i (step * Scalar.sign (g.getD i 0)))

/-- The share of its deviation that each parameter uses in the worst case, with its sign. -/
def shares (gamma : α) (g deviation : List α) : List α :=
  let contributions := List.zipWith contribution g deviation
  spend g contributions (ranking contributions) gamma (g.map fun _ => 0)

/-- The worst case of a linear function over the set. -/
def worstCase (s : Budget α) (g : List α) : Except (Fault α) (List α) :=
  match s.data with
  | none => .error .wrongKind
  | some (nominal, deviation) =>
    if g.length ≠ deviation.length then .error .indexOutOfRange
    else
      let shift := List.zipWith (fun p z => if Scalar.isZero p.1 then 0 else p.2 * z)
        (g.zip deviation) (shares s.gamma g deviation)
      .ok (List.zipWith (· + ·) nominal shift)

/-- The parameters on which a side depends. -/
def active (side : Bilinear.Side α) : List Nat :=
  (List.range side.linear.length).filter fun i =>
    !Scalar.isZero (side.offset.getD i 0)
      || (side.linear.getD i []).any fun x => !Scalar.isZero x

/-- The entries of a list at given positions. -/
def pick {β : Type} (default : β) (positions : List Nat) (xs : List β) : List β :=
  positions.map fun i => xs.getD i default

/-- The constraints equivalent to one side. With `d` the deviations and `s(x)` the coefficients of
the active parameters, auxiliary variables satisfy `t ≥ d s`, `t ≥ -d s` and `pi + p ≥ t`, and the
nominal value of the side plus `gamma pi + Σ p` is bounded. Without active parameters, budget or
deviation the nominal value alone is bounded. -/
def reformulate (gamma : α) (nominal deviation : List α) (side : Bilinear.Side α)
    (certain : Affine α) (rhs : α) (decisions : List (Decision α)) (supply : Supply) :
    Except (Fault α) (List (LinearConstraint α) × Supply) := do
  let positions := active side
  if positions.isEmpty then return ([.atMost certain (.constant rhs)], supply)
  let slopes ← Affine.ofMap (pick [] positions side.linear) (pick 0 positions side.offset)
    decisions
  let nominal := pick 0 positions nominal
  let deviation := pick 0 positions deviation
  let expected := (nominal.zip slopes).foldl (fun acc p => .add acc (.scale p.1 p.2)) certain
  if Scalar.isZero gamma || !(deviation.any fun d => Scalar.lt 0 d) then
    return ([.atMost expected (.constant rhs)], supply)
  let (t, supply) := supply.fresh (some positions.length) false
  let (p, supply) := supply.fresh (some positions.length) true
  let (pi, supply) := supply.fresh none true
  let symbols := fun (cs : List Column) => cs.map Affine.auxiliary
  let spread := List.zipWith Affine.scale deviation slopes
  let covered := (symbols p).map fun e =>
    pi.foldl (fun acc c => .add (Affine.auxiliary c) acc) e
  let bound := (expected.addColumns (pi.map fun c => (gamma, c))).addColumns
    (p.map fun c => (1, c))
  return ([.entrywise .atMost spread (symbols t),
    .entrywise .atMost (spread.map Affine.neg) (symbols t),
    .entrywise .atMost (symbols t) covered,
    .atMost bound (.constant rhs)], supply)

def geometry (s : Budget α) : Geometry α where
  worstCase := s.worstCase
  reformulate := match s.data with
    | some (nominal, deviation) => reformulate s.gamma nominal deviation
    | none => fun side certain rhs _ supply =>
      if (active side).isEmpty then .ok ([.atMost certain (.constant rhs)], supply)
      else .error .wrongKind

end Budget

end RobustOpt
