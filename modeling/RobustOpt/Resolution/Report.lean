import RobustOpt.Registry

/-!
# Reports of reformulations

After a reformulation a set reports which of the offered constraints it covered: nothing, a count,
or a collection of indices. A count is accepted only if it is zero or the number offered.

## Main definitions

* `Report.covered`: the indices a report stands for.
* `Report.partition`: covered and remaining indices, if all covered ones were offered.
-/

namespace RobustOpt

namespace Report

variable {α : Type} [Scalar α]

/-- The distinct items of a collection of keys, in order of appearance. -/
def distinct (keys : List (Literal α)) : Except (Fault α) (List (Literal α)) :=
  if keys.all Literal.isKey then .ok (Registry.firsts keys) else .error .wrongKind

/-- The indices that a report of the set `kindName` stands for. -/
def covered (kindName : String) (report : Literal α) (offered : List Int) :
    Except (Fault α) (List (Literal α)) :=
  match report with
  | .absent => .ok []
  | .integer n =>
    if n = 0 then .ok []
    else if n = offered.length then
      .ok (Registry.firsts (offered.map Literal.integer))
    else .error (.ambiguousCount kindName n offered.length)
  | .list keys => distinct keys
  | .text s => .ok (Registry.firsts (s.toList.map fun c => .text (String.ofList [c])))
  | .truth _ | .real _ => .error .wrongKind

/-- Insert a key before the first greater one. -/
def insertKey (key : Literal α) : List (Literal α) → Except (Fault α) (List (Literal α))
  | [] => .ok [key]
  | k :: ks => do
    if ← key.less k then return key :: k :: ks
    else return k :: (← insertKey key ks)

/-- Keys in increasing order; numbers and texts do not compare. -/
def sorted (keys : List (Literal α)) : Except (Fault α) (List (Literal α)) :=
  keys.foldlM (fun acc k => insertKey k acc) []

/-- The number of covered indices and the remaining ones. A report of an index that was not
offered is refused. -/
def partition (kindName : String) (report : Literal α) (offered : List Nat) :
    Except (Fault α) (Nat × List Nat) := do
  let indices := offered.map Int.ofNat
  let done ← covered kindName report indices
  let keys := indices.map Literal.integer
  let unknown := done.filter fun k => !keys.any fun o => k == o
  if !unknown.isEmpty then throw (.notOffered kindName (← sorted unknown))
  return (done.length, offered.filter fun i => !done.any fun k => k == .integer i)

end Report

end RobustOpt
