import RobustOpt.Fault

/-!
# Ownership of constraints

During one solve every uncertain constraint has exactly one owning set. A registry lists the
registrations in the order they were made; the owner of an index, the indices of an owner and
the order in which owners appeared are read off this list.

## Main definitions

* `Registry`: the registrations, over any type of index and of owner.
* `Registry.register`: record an owner, refusing a second one.
* `Registry.owner?`, `Registry.indices`, `Registry.owners`: the three views.
* `Registry.checkComplete`: refuse a registry that misses an owner.
-/

namespace RobustOpt

/-- The registrations in the order they were made, each index once. -/
structure Registry (ι κ : Type) where
  entries : List (ι × κ)

namespace Registry

variable {ι κ : Type} [BEq ι] [BEq κ]

def empty : Registry ι κ := ⟨[]⟩

/-- The owner of an index. -/
def owner? (r : Registry ι κ) (index : ι) : Option κ :=
  (r.entries.find? fun e => e.1 == index).map Prod.snd

omit [BEq κ] in
@[simp] theorem owner?_empty (index : ι) : (empty : Registry ι κ).owner? index = none := rfl

def contains (r : Registry ι κ) (index : ι) : Bool := (r.owner? index).isSome

def size (r : Registry ι κ) : Nat := r.entries.length

/-- The indices of an owner, in the order of registration. -/
def indices (r : Registry ι κ) (owner : κ) : List ι :=
  (r.entries.filter fun e => e.2 == owner).map Prod.fst

/-- Keep the first of equal items. -/
def firsts {β : Type} [BEq β] : List β → List β
  | [] => []
  | x :: xs => x :: (firsts xs).filter fun y => !(x == y)

/-- The owners in the order in which each received its first index. -/
def owners (r : Registry ι κ) : List κ := firsts (r.entries.map Prod.snd)

/-- What a registration does: nothing if the index has this owner already, and it is refused,
with the present owner, if the index has another one. -/
def register (r : Registry ι κ) (index : ι) (owner : κ) : Except κ (Registry ι κ) :=
  match r.owner? index with
  | some present => if present == owner then .ok r else .error present
  | none => .ok ⟨r.entries ++ [(index, owner)]⟩

/-- The positions below `count` whose index has no owner. -/
def missing (r : Registry ι κ) (index : Nat → ι) (count : Nat) : List Nat :=
  (List.range count).filter fun i => !r.contains (index i)

/-- Refuse a registry in which the index of a position below `count` has no owner. -/
def checkComplete {α : Type} (r : Registry ι κ) (index : Nat → ι) (count : Nat) :
    Except (Fault α) Unit :=
  let missing := r.missing index count
  if missing.isEmpty then .ok () else .error (.unregistered missing)

end Registry

end RobustOpt
