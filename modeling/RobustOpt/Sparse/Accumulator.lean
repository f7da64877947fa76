import RobustOpt.Action
import RobustOpt.Fault
import RobustOpt.Position

/-!
# Sparse accumulators

A dense vector that remembers which of its slots were touched, in the order in which they were
first touched. It collects like terms: contributions to one index are summed in place, and the
slots whose sum is negligible are skipped when the items are read. Clearing resets the recorded
slots only, so that one accumulator serves many expressions.

## Main definitions

* `Accumulator`: the slots and the recorded indices.
* `Accumulator.add`, `Accumulator.clear`: the updates.
* `Accumulator.items`, `Accumulator.toDense`: what an accumulator shows.
-/

namespace RobustOpt

/-- Slot values and the indices recorded so far. An index may be negative and then counts from
the end; it is recorded as given. -/
structure Accumulator (α : Type) where
  slots : List α
  recorded : List Int

namespace Accumulator

variable {α : Type} [Scalar α]

def empty (size : Nat) : Accumulator α := ⟨List.replicate size 0, []⟩

def size (acc : Accumulator α) : Nat := acc.slots.length

/-- The slot an index names; negative indices count from the end. -/
def slot? (acc : Accumulator α) (index : Int) : Option Nat := Position.find? acc.size index

/-- The stored value of the slot an index names, zero if it names none. -/
def stored (acc : Accumulator α) (index : Int) : α :=
  ((acc.slot? index).bind (acc.slots[·]?)).getD 0

/-- The value a slot takes after a contribution: exact cancellation leaves a trace. -/
def contribute (old x : α) : α :=
  let new := old + x
  if Scalar.isZero new then Scalar.cancelled else new

/-- What has to be recorded before a contribution to slot `k`: the index, if the slot is zero.
There is room for as many records as there are slots. -/
def record (index : Int) (k : Nat) : Action (Accumulator α) (Fault α) Unit :=
  .ofFun fun acc =>
    if (acc.slots[k]?).all Scalar.isZero then
      if acc.recorded.length < acc.size then
        (.ok (), { acc with recorded := acc.recorded ++ [index] })
      else (.error .indexOutOfRange, acc)
    else (.ok (), acc)

/-- Add a contribution to an index. A contribution equal to zero is ignored, whatever the index.
The index is recorded before the contribution is converted. -/
def add (index : Int) (contribution : Literal α) : Action (Accumulator α) (Fault α) Unit := do
  if contribution.isZero then return ()
  match (← get).slot? index with
  | none => throw .indexOutOfRange
  | some k =>
    record index k
    match contribution.toAddend with
    | .error e => throw e
    | .ok x => modify fun acc => { acc with slots := acc.slots.modify k (contribute · x) }

/-- The recorded indices whose slot is not negligible, in the order of recording. -/
def indices (acc : Accumulator α) : List Int :=
  acc.recorded.filter fun i => Scalar.le Scalar.zeroTol (Scalar.abs (acc.stored i))

/-- The active indices with their values. -/
def items (acc : Accumulator α) : List (Int × α) := acc.indices.map fun i => (i, acc.stored i)

/-- The value at an index, zero if it is negligible. -/
def value (acc : Accumulator α) (index : Int) : Except (Fault α) α :=
  match acc.slot? index with
  | none => .error .indexOutOfRange
  | some _ =>
    let x := acc.stored index
    .ok (if Scalar.lt (Scalar.abs x) Scalar.zeroTol then 0 else x)

/-- The items as a dense vector. -/
def toDense (acc : Accumulator α) : List α :=
  acc.items.foldl (fun dense p => match acc.slot? p.1 with
    | some k => dense.set k p.2
    | none => dense) (List.replicate acc.size 0)

/-- Reset the recorded slots and forget the records. -/
def clear (acc : Accumulator α) : Accumulator α where
  slots := acc.recorded.foldl (fun slots i => match acc.slot? i with
    | some k => slots.set k 0
    | none => slots) acc.slots
  recorded := []

@[simp] theorem size_empty (n : Nat) : (empty n : Accumulator α).size = n := by
  simp [empty, size]

@[simp] theorem recorded_clear (acc : Accumulator α) : acc.clear.recorded = [] := rfl

end Accumulator

end RobustOpt
