import RobustOpt.Proofs.Accumulator.Calls

/-!
# Reused accumulators

Terms may be collected in an accumulator that was used before. Additions, clearings and other
collections can precede in any order, and any of them may have been refused half-way, with entries
left behind. What is collected then is what a new accumulator gives, to the last bit of a rounded
sum, and nothing of it is left in the accumulator.

## Main definitions

* `Accumulator.Use`: what is done with an accumulator, `Accumulator.afterUses`: what it leaves.
* `Accumulator.ShowsNothing`: nothing is seen of any contribution.

## Main statements

* `Accumulator.covers_afterUses`: no use leaves a slot that is not zero without a record.
* `Uncertain.collectIn_afterUses`: a collection does not depend on the accumulator.
-/

namespace RobustOpt

/-! ## Uses of an accumulator -/

namespace Accumulator

variable {α : Type} [Scalar α]

/-- What is done with an accumulator: a call, or collecting the terms of an expression in it. -/
inductive Use (α : Type) where
  | call (c : Call α)
  | collect (e : Uncertain α)

/-- The accumulator that a use leaves, be it refused or not. -/
def Use.leave (acc : Accumulator α) : Use α → Accumulator α
  | call c => (c.act.perform acc).2
  | collect e => (e.collectIn.perform acc).2

/-- The accumulator with `n` slots after uses. -/
def afterUses (n : ℕ) (uses : List (Use α)) : Accumulator α := uses.foldl Use.leave (.empty n)

/-- Nothing is seen of any contribution. -/
structure ShowsNothing (acc : Accumulator α) : Prop where
  indices : acc.indices = []
  items : acc.items = []
  dense : acc.toDense = List.replicate acc.size 0
  value : ∀ i k, acc.slot? i = some k → acc.value i = .ok 0

theorem showsNothing_empty (n : ℕ) : (empty n : Accumulator α).ShowsNothing where
  indices := rfl
  items := rfl
  dense := rfl
  value i k hk := by
    have hstored : (empty n : Accumulator α).stored i = 0 := by
      have hlt : k < n := by simpa using Position.lt_of_find? hk
      rw [stored, hk]
      simp [empty, hlt]
    rw [value, hk, hstored]
    simp

variable [Scalar.TellsZero α] {n : ℕ} {acc : Accumulator α}

theorem Covers.leave (h : Covers n acc) (u : Use α) : Covers n (u.leave acc) := by
  cases u with
  | call c =>
    cases c with
    | add i v => exact h.add i v
    | clear => exact keeps_clear acc h
  | collect e => exact e.keeps_collectIn acc h

/-- Every slot that is not zero stays recorded, whatever the accumulator is used for. -/
theorem covers_afterUses (n : ℕ) (uses : List (Use α)) : Covers n (afterUses n uses) := by
  induction uses using List.reverseRecOn with
  | nil => exact covers_empty n
  | append_singleton uses u ih =>
    rw [afterUses, List.foldl_append]
    exact ih.leave u

end Accumulator

/-! ## Collecting after uses -/

namespace Uncertain

open Accumulator

variable {α : Type} [Scalar α] [Scalar.TellsZero α]

/-- Whatever an accumulator that is long enough was used for, collecting in it gives what a new one
gives: every parameter at most once, in the order of the first terms that count. The accumulator
shows nothing of it afterwards, unless there was nothing to collect. -/
theorem collectIn_afterUses (n : ℕ) (uses : List (Use α)) (e : Uncertain α)
    (hlt : ∀ t ∈ e.terms, t.1.index < n) :
    (∃ acc, e.collectIn.Yields (afterUses n uses) e.collect acc
      ∧ (e.terms = [] → acc = afterUses n uses)
      ∧ (e.terms ≠ [] → acc = .empty n ∧ acc.ShowsNothing))
    ∧ (∃ acc, e.collectIn.Yields (.empty e.span) e.collect acc)
    ∧ Lists e.additions e.collect := by
  have hcollect := e.collect_eq_listed
  have hused := e.yields_collectIn_listed _ (clear_eq_empty (covers_afterUses n uses)) hlt
  have hnew := e.yields_collectIn_listed (.empty e.span) rfl e.index_lt_span
  rw [← hcollect] at hused hnew
  refine ⟨⟨_, hused, fun hnil => ?_, fun hne => ?_⟩, ⟨_, hnew⟩, hcollect ▸ lists_listed _⟩
  · simp [hnil]
  · rw [if_neg (by simpa using hne)]
    exact ⟨rfl, showsNothing_empty n⟩

end Uncertain

namespace Tally

def part (i : ℕ) : Parameter Float := ⟨0, i, .text "part", 0, 1⟩

def tenth : Float := Scalar.ofRat (1 / 10)

def fifth : Float := Scalar.ofRat (1 / 5)

/-- Three slots are too few for the second term. -/
def tooLong : Uncertain Float := ⟨[(part 0, fifth), (part 5, tenth), (part 1, tenth)], 0⟩

/-- Of the additions the last one is refused, and so is the collection half-way. -/
def uses : List (Accumulator.Use Float) :=
  [.call (.add (-1) (.real fifth)), .call .clear, .collect tooLong, .call (.add 1 .absent)]

def sum : Uncertain Float :=
  ⟨[(part 2, tenth), (part 0, 0), (part 1, fifth), (part 2, fifth), (part 0, tenth)], 1⟩

theorem index_lt : ∀ t ∈ sum.terms, t.1.index < 3 := by decide

end Tally

/-- Entries of two uses that were refused are left before. The coefficients are those of the new sum
all the same, also the one that is rounded, and the zero term does not count for the order. -/
theorem tally_collectIn_afterUses :
    (Accumulator.afterUses 3 Tally.uses).recorded = [0, 1]
    ∧ Tally.sum.collectIn.Yields (Accumulator.afterUses 3 Tally.uses) Tally.sum.collect (.empty 3)
    ∧ Tally.sum.collect.map (fun p => (p.1, p.2.toBits))
      = [(2, (Tally.tenth + Tally.fifth).toBits), (1, Tally.fifth.toBits), (0, Tally.tenth.toBits)]
    ∧ (Tally.tenth + Tally.fifth).toBits ≠ (Scalar.ofRat (3 / 10) : Float).toBits := by
  obtain ⟨⟨acc, hyields, -, hempty⟩, -⟩ :=
    Uncertain.collectIn_afterUses 3 Tally.uses Tally.sum Tally.index_lt
  obtain ⟨rfl, -⟩ := hempty (by simp [Tally.sum])
  exact ⟨by decide +kernel, hyields, by decide +kernel, by decide +kernel⟩

end RobustOpt
