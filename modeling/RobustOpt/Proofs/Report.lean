import Mathlib.Algebra.Order.Field.Rat
import RobustOpt.Proofs.Protocol
import RobustOpt.UncertaintySet.Basic

/-!
# Reports of indices

A set reports the indices it covered as a list. Such a report is accepted exactly if all of them
were offered, and the remaining constraints are the other ones.

## Main statements

* `Report.partition_reportOf`: the division of the offered constraints by a report of indices.
* `Report.subset_of_partition`: what remains after any report was offered.
-/

namespace RobustOpt

theorem Registry.firsts_map {β γ : Type} [BEq β] [BEq γ] {f : β → γ}
    (hf : ∀ x y, (f x == f y) = (x == y)) (l : List β) : firsts (l.map f) = (firsts l).map f := by
  induction l with
  | nil => rfl
  | cons x l ih =>
    rw [List.map_cons, firsts, ih, firsts, List.map_cons, List.filter_map]
    simp [Function.comp_def, hf]

namespace Report

variable {α : Type} [Scalar α]

theorem integer_beq (a b : ℤ) :
    (Literal.integer a == (Literal.integer b : Literal α)) = (a == b) := by
  show Literal.same (.integer a) (.integer b) = _
  rw [Literal.same]
  · simp only [Literal.numeric?, Extended.eq]
    by_cases h : a = b <;> simp [h]
  all_goals simp

/-- A report of indices is accepted if all of them were offered, and leaves the other ones. -/
theorem partition_reportOf {name : String} {done : List ℤ} {offered : List ℕ} {out : ℕ × List ℕ} :
    partition name (UncertaintySet.reportOf done : Literal α) offered = .ok out ↔
      (∀ j ∈ done, ∃ i ∈ offered, j = (i : ℤ))
        ∧ out = ((Registry.firsts done).length,
          offered.filter fun i : ℕ => !done.contains (i : ℤ)) := by
  have hkeys : covered name (UncertaintySet.reportOf done : Literal α) (offered.map Int.ofNat)
      = .ok ((Registry.firsts done).map Literal.integer) := by
    rw [UncertaintySet.reportOf, covered, distinct, if_pos (by simp [Literal.isKey]),
      Registry.firsts_map integer_beq]
  rw [partition, hkeys]
  simp only [bind_eq_ok, Except.ok.injEq, exists_eq_left', List.any_map, List.length_map,
    List.filter_map, Function.comp_def, integer_beq, List.isEmpty_map]
  have hany : ∀ i : ℕ,
      ((Registry.firsts done).any fun k => k == (i : ℤ)) = done.contains (i : ℤ) := by
    intro i
    rw [Bool.eq_iff_iff, List.any_eq_true, List.contains_iff_mem]
    simp [Registry.mem_firsts]
  have hunknown : ((Registry.firsts done).filter fun k => !offered.any fun o => k == Int.ofNat o)
      = [] ↔ ∀ j ∈ done, ∃ i ∈ offered, j = (i : ℤ) := by
    simp [List.filter_eq_nil_iff, Registry.mem_firsts]
  simp only [hany, ← hunknown, Bool.not_eq_true', ← List.isEmpty_iff]
  split_ifs with h
  · refine iff_of_false (fun hbind => ?_) fun hall => by rw [hall.1] at h; simp at h
    obtain ⟨_, _, hbind⟩ := bind_eq_ok.mp hbind
    obtain ⟨_, hthrow, _⟩ := bind_eq_ok.mp hbind
    exact throw_ne_ok.mp hthrow
  · rw [pure_eq_ok, and_iff_right (by simpa using h), eq_comm]

/-- What remains after a report is part of what was offered. -/
theorem subset_of_partition {name : String} {report : Literal α} {offered rest : List ℕ} {n : ℕ}
    (h : partition name report offered = .ok (n, rest)) : ∀ i ∈ rest, i ∈ offered := by
  obtain ⟨done, -, h⟩ := bind_eq_ok.mp h
  dsimp only at h
  split_ifs at h
  · obtain ⟨_, _, h⟩ := bind_eq_ok.mp h
    obtain ⟨_, hthrow, _⟩ := bind_eq_ok.mp h
    exact absurd hthrow throw_ne_ok.mp
  · obtain ⟨-, rfl⟩ := Prod.mk.inj (pure_eq_ok.mp h)
    exact fun i hi => (List.mem_filter.mp hi).1

end Report

end RobustOpt
