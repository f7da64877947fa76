import RobustOpt.Proofs.Accumulator

/-!
# Sequences of calls

What an accumulator shows after additions and clearings in any order. If every value is a rational
number and every index names a slot, no addition is refused and everything shown is determined by
the contributions since the last clearing. A refused addition is not seen in what is shown. It does
leave a record behind, though, if it is refused for its value only and its slot was zero: the slot
is then recorded a second time once something is added to it.

## Main definitions

* `Accumulator.Call`: an addition or a clearing.
* `Accumulator.Reflects`: what is shown after contributions.
* `Accumulator.after`: the accumulator after calls, of which some may be refused.
* `Accumulator.Call.Spares`: calls that leave no record behind.

## Main statements

* `Accumulator.exists_reflects`: exact calls are taken and reflect their contributions.
* `Accumulator.refused_add_spec`: what a refused addition leaves behind.
-/

namespace RobustOpt

namespace Accumulator

/-- A call that changes an accumulator. -/
inductive Call (α : Type) where
  | add (index : ℤ) (value : Literal α)
  | clear

namespace Call

def act {α : Type} [Scalar α] : Call α → Action (Accumulator α) (Fault α) Unit
  | add i v => Accumulator.add i v
  | clear => modify Accumulator.clear

/-- The contributions after a call. -/
def extend (ts : List (ℤ × Extended)) : Call Extended → List (ℤ × Extended)
  | add i v =>
    match v.toAddend with
    | .ok x => ts ++ [(i, x)]
    | .error _ => ts
  | clear => []

/-- The contributions since the last clearing. -/
def since (calls : List (Call Extended)) : List (ℤ × Extended) := calls.foldl extend []

theorem since_append (calls : List (Call Extended)) (c : Call Extended) :
    since (calls ++ [c]) = c.extend (since calls) := by
  simp [since]

/-- An addition of a rational number to one of `n` slots, or a clearing. -/
def IsExact (n : ℕ) : Call Extended → Prop
  | add i v => -n ≤ i ∧ i < n ∧ ∃ q, v.toAddend = .ok (.finite q)
  | clear => True

end Call

/-! ## Exact calls -/

/-- The value of a slot after contributions: their sum, and a trace of each that made it zero. -/
def held (n : ℕ) (ts : List (ℤ × Extended)) (k : ℕ) : ℚ :=
  total (placed n ts) k + cancellations (placed n ts) k * (1 / 10 ^ 50)

/-- What an accumulator with `n` slots shows after contributions: each touched slot is recorded
once, under the index of the first contribution to it, and a slot is shown if its value is not too
small. -/
structure Reflects (n : ℕ) (ts : List (ℤ × Extended)) (acc : Accumulator Extended) : Prop where
  recorded : acc.recorded = opened n ts
  distinct : (acc.recorded.map (Position.find? n)).Nodup
  room : acc.recorded.length ≤ n
  touched : ∀ k, some k ∈ acc.recorded.map (Position.find? n)
    ↔ ∃ t ∈ ts, Position.find? n t.1 = some k ∧ t.2 ≠ 0
  stored : ∀ i k, Position.find? n i = some k → acc.stored i = .finite (held n ts k)
  indices : acc.indices = acc.recorded.filter fun i => 1 / 10 ^ 20 ≤ |held n ts (slotOf n i)|
  shown : ∀ k, some k ∈ acc.indices.map (Position.find? n) ↔ k < n ∧ 1 / 10 ^ 20 ≤ |held n ts k|
  items : acc.items = acc.indices.map fun i => (i, .finite (held n ts (slotOf n i)))
  dense : acc.toDense = (List.range n).map fun k =>
    .finite (if 1 / 10 ^ 20 ≤ |held n ts k| then held n ts k else 0)
  value : ∀ i k, Position.find? n i = some k →
    acc.value i = .ok (.finite (if 1 / 10 ^ 20 ≤ |held n ts k| then held n ts k else 0))

theorem trace_eq : trace = 1 / 10 ^ 50 := by
  rw [trace, Scalar.cancelled]
  show (mkRat 1 (Nat.pow 10 50)) = _
  norm_num [Rat.mkRat_eq_div]

theorem tolerance_eq : tolerance = 1 / 10 ^ 20 := by
  rw [tolerance, Scalar.zeroTol]
  show (mkRat 1 (Nat.pow 10 20)) = _
  norm_num [Rat.mkRat_eq_div]

section Exact

variable {n : ℕ} {ts : List (ℤ × Extended)}

theorem sums_placed (hts : ∀ t ∈ ts, Scalar.isFinite t.2 = true) (k : ℕ) :
    sums (placed n ts) k = .finite (held n ts k) := by
  rw [held, ← trace_eq]
  refine sums_eq_total (fun p hp => ?_) k
  obtain ⟨i, hi, -⟩ := mem_placed.mp hp
  exact hts _ hi

theorem shows_iff (hts : ∀ t ∈ ts, Scalar.isFinite t.2 = true) (k : ℕ) :
    shows (placed n ts) k = true ↔ 1 / 10 ^ 20 ≤ |held n ts k| := by
  rw [shows, sums_placed hts, zeroTol_eq_tolerance, tolerance_eq, Extended.abs_finite,
    Extended.le_finite, decide_eq_true_eq]

theorem map_find?_opened (n : ℕ) (ts : List (ℤ × Extended)) :
    (opened n ts).map (Position.find? n) = (touched (placed n ts)).map some := by
  rw [← (map_slotOf_opened n ts).2, List.map_map]
  exact List.map_congr_left (map_slotOf_opened n ts).1

/-- No slot is recorded twice. -/
theorem nodup_find?_opened (n : ℕ) (ts : List (ℤ × Extended)) :
    ((opened n ts).map (Position.find? n)).Nodup := by
  rw [map_find?_opened]
  exact (nodup_touched _).map (Option.some_injective _)

theorem map_find?_indices (n : ℕ) (ts : List (ℤ × Extended)) :
    (holding n ts).indices.map (Position.find? n)
      = ((touched (placed n ts)).filter (shows (placed n ts))).map some := by
  rw [← map_slotOf_indices, List.map_map]
  exact List.map_congr_left fun i hi =>
    (map_slotOf_opened n ts).1 i (List.mem_of_mem_filter hi)

/-- An accumulator shows the exact contributions to it. -/
theorem reflects_holding (hts : ∀ t ∈ ts, Scalar.isFinite t.2 = true) :
    (holding n ts).Reflects n ts where
  recorded := rfl
  distinct := nodup_find?_opened n ts
  room := by
    rw [holding, length_opened]
    exact length_touched_le _ lt_of_mem_placed
  touched k := by
    rw [holding, map_find?_opened, ← mem_touched_placed]
    simp
  stored i k hk := by rw [stored_holding hk, sums_placed hts]
  indices := by
    rw [indices_holding]
    refine List.filter_congr fun i _ => Bool.eq_iff_iff.mpr ?_
    rw [shows_iff hts, decide_eq_true_eq]
  shown k := by
    have hlt : shows (placed n ts) k = true → k < n := fun h =>
      lt_of_mem_touched _ lt_of_mem_placed (List.mem_of_mem_filter ((mem_filter_shows _ k).mpr h))
    rw [map_find?_indices, List.mem_map_of_injective (Option.some_injective _), mem_filter_shows,
      ← shows_iff hts]
    exact (and_iff_right_of_imp hlt).symm
  items := by
    rw [items_holding]
    simp only [sums_placed hts]
  dense := by
    rw [toDense_holding]
    refine List.map_congr_left fun k _ => ?_
    rw [if_congr (shows_iff hts k) rfl rfl, sums_placed hts]
    split_ifs <;> rfl
  value i k hk := by
    rw [value_holding hk, sums_placed hts, zeroTol_eq_tolerance, tolerance_eq]
    simp only [Extended.abs_finite, Extended.lt_finite, decide_eq_true_eq]
    by_cases h : 1 / 10 ^ 20 ≤ |held n ts k|
    · rw [if_neg (not_lt.mpr h), if_pos h]
    · rw [if_pos (not_le.mp h), if_neg h]
      rfl

theorem exists_find? {i : ℤ} (hlow : -n ≤ i) (hhigh : i < n) :
    ∃ k, Position.find? n i = some k := by
  refine ⟨_, if_pos ?_⟩
  split_ifs <;> omega

/-- The contributions of exact calls are finite. -/
theorem isFinite_of_mem_since {calls : List (Call Extended)} (h : ∀ c ∈ calls, c.IsExact n) :
    ∀ t ∈ Call.since calls, Scalar.isFinite t.2 = true := by
  induction calls using List.reverseRecOn with
  | nil => simp [Call.since]
  | append_singleton calls c ih =>
    obtain ⟨hcalls, hc⟩ := List.forall_mem_append.mp h
    have hc := List.forall_mem_singleton.mp hc
    rw [Call.since_append]
    cases c with
    | clear => simp [Call.extend]
    | add i v =>
      obtain ⟨-, -, q, hq⟩ := hc
      simp only [Call.extend, hq]
      exact List.forall_mem_append.mpr ⟨ih hcalls, List.forall_mem_singleton.mpr rfl⟩

/-- Additions of rational numbers to slots are taken, whatever was added before and however often
the accumulator was cleared. It shows the contributions since the last clearing. After one more it
is like a new one, for all calls that follow. -/
theorem exists_reflects {calls : List (Call Extended)} (h : ∀ c ∈ calls, c.IsExact n) :
    ∃ acc, (calls.forM Call.act).Yields (.empty n) ⟨⟩ acc ∧ acc.Reflects n (Call.since calls)
      ∧ acc.clear = .empty n
      ∧ ∀ later : List (Call Extended),
        ((calls ++ .clear :: later).forM Call.act).perform (.empty n)
          = (later.forM Call.act).perform (.empty n) := by
  obtain ⟨acc, hyields, rfl⟩ := Action.exists_yields_forM (f := Call.act) (l := calls)
    (fun done acc => acc = holding n (Call.since done)) holding_nil.symm (by
      rintro done c - hinit rfl
      have hc := h c (hinit.subset (by simp))
      rw [Call.since_append]
      -- each call leaves the accumulator with the contributions since the last clearing
      cases c with
      | clear =>
        refine ⟨_, Action.yields_modify.mpr rfl, ?_⟩
        rw [clear_eq_empty (covers_holding n _)]
        exact holding_nil.symm
      | add i v =>
        obtain ⟨hlow, hhigh, q, hq⟩ := hc
        obtain ⟨k, hk⟩ := exists_find? hlow hhigh
        refine ⟨_, yields_add_holding hk hq, ?_⟩
        simp only [Call.extend, hq])
  have hclear := clear_eq_empty (covers_holding n (Call.since calls))
  refine ⟨_, hyields, reflects_holding (isFinite_of_mem_since h), hclear, fun later => ?_⟩
  have hsplit : (calls ++ .clear :: later).forM Call.act
      = calls.forM Call.act >>= fun _ => Call.act .clear >>= fun _ => later.forM Call.act := by
    simp only [List.forM_eq_forM, List.forM_append, List.forM_cons]
  rw [hsplit, Action.perform_bind, hyields]
  dsimp only
  rw [Action.perform_bind]
  show (later.forM Call.act).perform (holding n (Call.since calls)).clear = _
  rw [hclear]

end Exact

namespace Series

/-- After a clearing, two additions to the last slot that cancel and one that cancels their trace,
one to the first slot, and one more to the last. -/
def calls : List (Call Extended) :=
  [.add 1 (.real (.finite 7)), .clear, .add (-1) (.real (.finite 1)), .add 2 (.real (.finite (-1))),
    .add 2 (.real (.finite (-1 / 10 ^ 50))), .add 0 (.truth true), .add 2 (.real (.finite 4))]

theorem exact_calls : ∀ c ∈ calls, c.IsExact 3 := by
  simp only [calls, List.forall_mem_cons, Call.IsExact]
  exact ⟨⟨by decide, by decide, _, rfl⟩, trivial, ⟨by decide, by decide, _, rfl⟩,
    ⟨by decide, by decide, _, rfl⟩, ⟨by decide, by decide, _, rfl⟩, ⟨by decide, by decide, 1, rfl⟩,
    ⟨by decide, by decide, _, rfl⟩, by simp⟩

end Series

/-- The last slot is recorded once, under the index that counts from the end, and holds the traces
of both cancellations. -/
theorem series_exists_reflects : ∃ acc, (Series.calls.forM Call.act).Yields (.empty 3) ⟨⟩ acc
    ∧ acc.recorded = [-1, 0] ∧ acc.stored 2 = .finite (4 + 1 / 10 ^ 50)
    ∧ acc.clear = .empty 3 := by
  obtain ⟨acc, hyields, hreflects, hclear, -⟩ := exists_reflects Series.exact_calls
  refine ⟨acc, hyields, ?_, ?_, hclear⟩
  · rw [hreflects.recorded]
    decide +kernel
  · rw [hreflects.stored 2 2 rfl]
    decide +kernel

/-! ## Refused additions -/

/-- The accumulator with `n` slots after calls, be they refused or not. -/
def after (n : ℕ) (calls : List (Call Extended)) : Accumulator Extended :=
  calls.foldl (fun acc c => (c.act.perform acc).2) (.empty n)

/-- The call does not add to a slot that is zero what cannot be added. -/
def Call.Spares (acc : Accumulator Extended) : Call Extended → Prop
  | add i v => ∀ k e, acc.slot? i = some k → v.toAddend = .error e → acc.slots[k]? ≠ some 0
  | clear => True

/-- No call adds to a slot that is zero what cannot be added. -/
def Spared (n : ℕ) (calls : List (Call Extended)) : Prop :=
  ∀ done c, done ++ [c] <+: calls → c.Spares (after n done)

section Refused

variable {n : ℕ} {acc : Accumulator Extended} {i : ℤ} {k : ℕ}

theorem after_append (calls : List (Call Extended)) (c : Call Extended) :
    after n (calls ++ [c]) = (c.act.perform (after n calls)).2 := by
  simp [after]

/-- Every slot that is not zero stays recorded, also if calls are refused. -/
theorem covers_after (n : ℕ) (calls : List (Call Extended)) : Covers n (after n calls) := by
  induction calls using List.reverseRecOn with
  | nil => exact covers_empty n
  | append_singleton calls c ih =>
    rw [after_append]
    cases c with
    | add i v => exact ih.add i v
    | clear =>
      show Covers n (after n calls).clear
      rw [clear_eq_empty ih]
      exact covers_empty n

/-- What is left by a refused addition is what was there, but for a record of a slot that is
zero. -/
theorem perform_add_eq_error {v : Literal Extended} {e : Fault Extended}
    {acc' : Accumulator Extended} (h : (add i v).perform acc = (.error e, acc')) :
    acc' = acc ∨ ∃ k, acc.slot? i = some k ∧ acc.slots[k]? = some 0 ∧ (∃ e, v.toAddend = .error e)
      ∧ acc' = acc.noted i k := by
  rw [perform_add] at h
  split_ifs at h with h0
  · cases h
  · cases hk : acc.slot? i with
    | none =>
      rw [hk] at h
      exact .inl (Prod.mk.inj h).2.symm
    | some k =>
      rw [hk] at h
      dsimp only at h
      split_ifs at h with hfull
      · exact .inl (Prod.mk.inj h).2.symm
      · cases hv : v.toAddend with
        | ok x =>
          rw [hv] at h
          cases (Prod.mk.inj h).1
        | error e' =>
          rw [hv] at h
          obtain rfl := (Prod.mk.inj h).2
          by_cases hz : acc.slots[k]? = some 0
          · exact .inr ⟨k, rfl, hz, ⟨e', rfl⟩, rfl⟩
          · exact .inl (if_neg hz)

theorem stored_noted (acc : Accumulator Extended) (i : ℤ) (k : ℕ) :
    (acc.noted i k).stored = acc.stored := by
  funext j
  simp [stored, slot?, size]

/-- A record of a slot that is zero is not shown. -/
theorem indices_noted (hk : acc.slot? i = some k) (hz : acc.slots[k]? = some 0) :
    (acc.noted i k).indices = acc.indices := by
  have hstored : acc.stored i = 0 := by rw [stored, hk, Option.bind_some, hz, Option.getD_some]
  have hhidden : Scalar.le Scalar.zeroTol (Scalar.abs (acc.stored i)) = false := by
    rw [hstored]
    decide +kernel
  have hrecorded : (acc.noted i k).recorded = acc.recorded ++ [i] := by rw [noted, if_pos hz]
  rw [indices, stored_noted, hrecorded, List.filter_append, indices]
  simp [hhidden]

/-- An addition of what cannot be added leaves no record of a slot that is not zero. -/
theorem snd_perform_add_of_spares {v : Literal Extended} {e : Fault Extended}
    (hv : v.toAddend = .error e) (h : (Call.add i v).Spares acc) :
    ((add i v).perform acc).2 = acc := by
  rw [perform_add, hv]
  split_ifs
  · rfl
  · cases hk : acc.slot? i with
    | none => rfl
    | some k =>
      dsimp only
      split_ifs
      · rfl
      · exact if_neg (h k e hk hv)

/-- After calls that are spared, an accumulator holds their contributions. -/
theorem after_eq_holding {calls : List (Call Extended)} (h : Spared n calls) :
    after n calls = holding n (Call.since calls) := by
  induction calls using List.reverseRecOn with
  | nil => exact holding_nil.symm
  | append_singleton calls c ih =>
    have hspares := h calls c (List.prefix_refl _)
    have ih := ih fun done c hdone => h done c (hdone.trans (List.prefix_append _ _))
    rw [after_append, Call.since_append, ih]
    rw [ih] at hspares
    cases c with
    | clear =>
      show (holding n (Call.since calls)).clear = holding n []
      rw [clear_eq_empty (covers_holding n _), holding_nil]
    | add i v =>
      show ((add i v).perform (holding n (Call.since calls))).2 = _
      cases hv : v.toAddend with
      | error e =>
        rw [snd_perform_add_of_spares hv hspares]
        simp only [Call.extend, hv]
      | ok x =>
        simp only [Call.extend, hv]
        cases hk : Position.find? n i with
        | some k => exact congrArg Prod.snd (yields_add_holding hk hv)
        | none =>
          have hslot : (holding n (Call.since calls)).slot? i = none := by
            rw [slot?, size_holding, hk]
          rw [perform_add, hslot, holding_append_of_idle (.inr hk)]
          split_ifs <;> rfl

/-- A refused addition is not seen in the slots nor in anything that is shown, nor after the next
clearing. Unless it is refused for its value and its slot is zero it changes nothing at all. If no
call is of that kind, no slot is recorded twice and no addition of a scalar to a slot is refused. -/
theorem refused_add_spec (n : ℕ) (calls : List (Call Extended)) :
    (∀ i v e acc, (add i v).perform (after n calls) = (.error e, acc) →
      acc.slots = (after n calls).slots ∧ acc.indices = (after n calls).indices
      ∧ acc.items = (after n calls).items ∧ acc.toDense = (after n calls).toDense
      ∧ (∀ j, acc.value j = (after n calls).value j) ∧ acc.clear = .empty n
      ∧ ((Call.add i v).Spares (after n calls) → acc = after n calls))
    ∧ (Spared n calls → ((after n calls).recorded.map (Position.find? n)).Nodup
      ∧ ∀ (i : ℤ) v x, -n ≤ i → i < n → v.toAddend = .ok x →
        ∃ acc, (add i v).Yields (after n calls) ⟨⟩ acc) := by
  constructor
  · intro i v e acc h
    have hcovers : Covers n acc := by
      have := (covers_after n calls).add i v
      rwa [h] at this
    have hclear := clear_eq_empty hcovers
    obtain rfl | ⟨k, hk, hz, ⟨e', hv⟩, rfl⟩ := perform_add_eq_error h
    · exact ⟨rfl, rfl, rfl, rfl, fun _ => rfl, hclear, fun _ => rfl⟩
    · -- the index was recorded before the value was refused, for a slot that stays zero
      have hstored := stored_noted (after n calls) i k
      have hindices := indices_noted hk hz
      have hitems : ((after n calls).noted i k).items = (after n calls).items := by
        rw [items, items, hindices, hstored]
      have hslot : ((after n calls).noted i k).slot? = (after n calls).slot? := by
        funext j
        simp [slot?, size]
      refine ⟨slots_noted _ i k, hindices, hitems, ?_, fun j => ?_, hclear,
        fun hspares => absurd hz (hspares k e' hk hv)⟩
      · rw [toDense, toDense, hitems, hslot, size, slots_noted]
        rfl
      · rw [value, value, hstored, hslot]
  · intro hspared
    rw [after_eq_holding hspared]
    refine ⟨nodup_find?_opened n _, fun i v x hlow hhigh hv => ?_⟩
    obtain ⟨k, hk⟩ := exists_find? hlow hhigh
    exact ⟨_, yields_add_holding hk hv⟩

end Refused

/-- Nothing is left by the addition of an absent value to a slot that is not zero, which can be
added to afterwards. -/
theorem filled_refused_add : ∃ acc,
    (add 0 .absent).perform (after 1 [.add 0 (.real (.finite 1))]) = (.error .wrongKind, acc)
    ∧ acc = after 1 [.add 0 (.real (.finite 1))]
    ∧ ∃ acc', (add (-1) (.real (.finite 2))).Yields acc ⟨⟩ acc' := by
  let calls : List (Call Extended) := [.add 0 (.real (.finite 1))]
  have hk : (after 1 calls).slot? 0 = some 0 := by
    rw [slot?, (covers_after 1 calls).size]
    rfl
  have hfilled : (after 1 calls).slots[0]? ≠ some 0 := by decide +kernel
  have hrefusal : (add 0 .absent).perform (after 1 calls)
      = (.error .wrongKind, (after 1 calls).noted 0 0) := by
    have hzero : (Literal.absent : Literal Extended).isZero = false := rfl
    simp only [perform_add, hzero, hk, hfilled, false_and, if_false, Bool.false_eq_true]
    rfl
  have hspared : Spared 1 calls := by
    intro done c hinit
    obtain rfl : c = .add 0 (.real (.finite 1)) := by
      simpa [calls] using hinit.subset (List.mem_append_right _ (List.mem_singleton_self c))
    intro k e _ hv
    cases hv
  have hspares : (Call.add 0 .absent).Spares (after 1 calls) := by
    intro k e hk' _
    obtain rfl := Option.some.inj (hk.symm.trans hk')
    exact hfilled
  obtain ⟨hrefused, htaken⟩ := refused_add_spec 1 calls
  obtain ⟨-, -, -, -, -, -, hsame⟩ := hrefused 0 .absent .wrongKind _ hrefusal
  obtain ⟨acc', hacc'⟩ := (htaken hspared).2 (-1) (.real (.finite 2)) _ (by decide) (by decide) rfl
  exact ⟨_, hrefusal, hsame hspares, acc', (hsame hspares).symm ▸ hacc'⟩

/-- After the addition of an absent value to a slot that is zero, the slot is shown twice once
something is added to it. -/
theorem not_refused_add_unseen :
    ¬ ∀ (n : ℕ) (calls : List (Call Extended)) (i : ℤ) (v : Literal Extended) (e : Fault Extended)
      (acc : Accumulator Extended), (add i v).perform (after n calls) = (.error e, acc) →
      ∀ j w, ((add j w).perform acc).2.items = ((add j w).perform (after n calls)).2.items := by
  intro h
  have hitems := h 2 [] 0 .absent .wrongKind _ rfl 0 (.real (.finite 1))
  revert hitems
  decide +kernel

end Accumulator

end RobustOpt
