/-!
# Positions counted from either end

An index into `size` items is a whole number. Indices from zero on count from the front, negative
ones from the end, so that `-1` names the last item.

## Main definitions

* `Position.find?`: the position an index names, if there is one.
-/

namespace RobustOpt

namespace Position

/-- The position that an index names among `size` items. -/
def find? (size : Nat) (index : Int) : Option Nat :=
  let k := if index < 0 then index + size else index
  if 0 ≤ k ∧ k < size then some k.toNat else none

theorem lt_of_find? {size k : Nat} {index : Int} (h : find? size index = some k) : k < size := by
  unfold find? at h
  grind

@[simp] theorem find?_natCast {size k : Nat} (h : k < size) : find? size k = some k := by
  unfold find?
  grind

end Position

end RobustOpt
