import RobustOpt.Proofs.Accumulator.Filling

/-!
# Contributions to an accumulator

What an accumulator of extended rationals holds is a function of the contributions to it. Every slot
ends up with the sum of what was added to it, where a contribution that makes it zero leaves a trace
instead. Hence a slot is zero only as long as nothing was added to it, and the indices recorded are
those of the contributions that are the first to their slot. An index that is negative names the
slot of one that is not.

## Main definitions

* `Accumulator.sums`, `Accumulator.touched`: the slots and the touched ones after contributions.
* `Accumulator.opened`: the indices of the first contributions to each slot.
* `Accumulator.holding`: the accumulator after contributions.

## Main statements

* `Accumulator.perform_add`: what one addition does, be it refused or not.
* `Accumulator.yields_add_holding`: an addition that is not refused is one more contribution.
* `Accumulator.covers_holding`: every slot that is not zero is recorded.
-/

namespace RobustOpt

/-- Setting entries of a vector at some positions, one after the other. -/
theorem foldl_set_map_range {β : Type} (keys : List ℕ) (f g : ℕ → β) (n : ℕ) :
    keys.foldl (fun row i => row.set i (f i)) ((List.range n).map g)
      = (List.range n).map fun i => if i ∈ keys then f i else g i := by
  induction keys generalizing g with
  | nil => simp
  | cons k keys ih =>
    have hset : ((List.range n).map g).set k (f k)
        = (List.range n).map (Function.update g k (f k)) := by
      refine List.ext_getElem (by simp) fun j hj _ => ?_
      by_cases h : k = j
      · simp [h]
      · simp [h, Function.update_of_ne (Ne.symm h)]
    rw [List.foldl_cons, hset, ih]
    refine List.map_congr_left fun i _ => ?_
    by_cases h : i = k <;> simp [h]

namespace Accumulator

/-! ## Contributions to slots -/

theorem isZero_real (x : Extended) : (Literal.real x).isZero = Scalar.isZero x := by
  cases x <;> rfl

/-- The value of a slot after contributions to indices, those that are zero being ignored. -/
def sums (ts : List (ℕ × Extended)) (i : ℕ) : Extended :=
  ts.foldl (fun old t => if t.1 = i ∧ t.2 ≠ 0 then contribute old t.2 else old) 0

/-- The indices of the contributions that are not zero, in the order of their first ones. -/
def touched (ts : List (ℕ × Extended)) : List ℕ :=
  ((ts.filter fun t => t.2 ≠ 0).map Prod.fst).eraseDups

section Slots

variable {n : ℕ} (ts : List (ℕ × Extended)) (t : ℕ × Extended)

theorem sums_append (i : ℕ) : sums (ts ++ [t]) i
    = if t.1 = i ∧ t.2 ≠ 0 then contribute (sums ts i) t.2 else sums ts i := by
  simp [sums]

theorem mem_touched {i : ℕ} : i ∈ touched ts ↔ ∃ x, (i, x) ∈ ts ∧ x ≠ 0 := by
  simp [touched, List.mem_eraseDups]

theorem counts_iff (x : Extended) : counts x = true ↔ x ≠ 0 := by
  rw [counts, isZero_real, Bool.not_eq_true', Bool.eq_false_iff, ne_eq, Extended.isZero_iff]

/-- Among extended rationals a contribution counts unless it is zero. -/
theorem sums_eq_level : sums ts = level ts := by
  funext i
  simp only [sums, level, counts_iff]

theorem touched_eq_entered : touched ts = entered ts := by
  rw [touched, entered]
  congr 2
  exact List.filter_congr fun t _ => Bool.eq_iff_iff.mpr (by simp [counts_iff])

theorem touched_append : touched (ts ++ [t])
    = if t.2 = 0 ∨ t.1 ∈ touched ts then touched ts else touched ts ++ [t.1] := by
  rw [touched_eq_entered, touched_eq_entered, entered_append]
  grind [counts_iff]

theorem nodup_touched : (touched ts).Nodup := nodup_eraseDups _

/-- A slot is recorded if and only if it is not zero. -/
theorem sums_ne_zero_iff {i : ℕ} : sums ts i ≠ 0 ↔ i ∈ touched ts := by
  rw [sums_eq_level, touched_eq_entered, ne_eq, ← Extended.isZero_iff, isZero_level, not_not]

/-- An index with a single contribution has its value. -/
theorem sums_eq_of_nodup {ts : List (ℕ × Extended)} (hts : (ts.map Prod.fst).Nodup)
    {t : ℕ × Extended} (ht : t ∈ ts) : sums ts t.1 = t.2 := by
  induction ts using List.reverseRecOn with
  | nil => cases ht
  | append_singleton ts s ih =>
    obtain ⟨hts, -, hdisjoint⟩ := List.nodup_append.mp (List.map_append ▸ hts)
    rw [sums_append]
    rcases List.mem_append.mp ht with ht | ht
    · have hne : s.1 ≠ t.1 := fun h => hdisjoint _ (List.mem_map_of_mem ht) s.1 (by simp) h.symm
      rw [if_neg fun h => hne h.1, ih hts ht]
    · obtain rfl := List.mem_singleton.mp ht
      have hzero : sums ts t.1 = 0 := by
        refine not_not.mp (mt (sums_ne_zero_iff ts).mp fun h => ?_)
        obtain ⟨x, hx, -⟩ := (mem_touched ts).mp h
        exact hdisjoint _ (List.mem_map_of_mem hx) t.1 (by simp) rfl
      by_cases h0 : t.2 = 0
      · simp [h0, hzero]
      · have hadd : (0 : Extended) + t.2 = t.2 := by
          show Extended.add (.finite 0) t.2 = t.2
          cases t.2 <;> simp [Extended.add]
        rw [if_pos ⟨rfl, h0⟩, hzero, contribute, hadd]
        exact if_neg (mt Extended.isZero_iff.mp h0)

theorem lt_of_mem_touched (hts : ∀ t ∈ ts, t.1 < n) {i : ℕ} (hi : i ∈ touched ts) : i < n := by
  obtain ⟨x, hx, -⟩ := (mem_touched ts).mp hi
  exact hts _ hx

/-- There are not more touched slots than slots. -/
theorem length_touched_le (hts : ∀ t ∈ ts, t.1 < n) : (touched ts).length ≤ n := by
  have hsub : touched ts ⊆ List.range n := fun k hk =>
    List.mem_range.mpr (lt_of_mem_touched ts hts hk)
  simpa using ((nodup_touched ts).subperm hsub).length_le

/-- There is room for the record of an index that was not touched. -/
theorem length_touched_lt (hts : ∀ t ∈ ts, t.1 < n) {i : ℕ} (hi : i < n) (h : i ∉ touched ts) :
    (touched ts).length < n :=
  length_lt_of_nodup (nodup_touched ts) (fun _ => lt_of_mem_touched ts hts) hi h

end Slots

/-! ## Contributions as they are given -/

section Given

variable (n : ℕ)

/-- The slot an index names, zero if it names none. -/
def slotOf (i : ℤ) : ℕ := (Position.find? n i).getD 0

/-- Contributions by slot. Those to indices that name none are left out. -/
def placed (ts : List (ℤ × Extended)) : List (ℕ × Extended) :=
  ts.filterMap fun t => (Position.find? n t.1).map fun k => (k, t.2)

/-- Whether a contribution is the first one to its slot, of those that are not zero. -/
def opens (ts : List (ℤ × Extended)) (j : ℕ) : Bool :=
  (ts[j]?).any fun t => (Position.find? n t.1).isSome && t.2 ≠ 0
    && (ts.take j).all fun s => s.2 = 0 || Position.find? n s.1 ≠ Position.find? n t.1

/-- The indices of the first contributions to each slot, as they are given. -/
def opened (ts : List (ℤ × Extended)) : List ℤ :=
  ((List.range ts.length).filter (opens n ts)).map fun j => (ts.getD j (0, 0)).1

/-- An accumulator with `n` slots, after contributions. -/
def holding (ts : List (ℤ × Extended)) : Accumulator Extended :=
  ⟨(List.range n).map (sums (placed n ts)), opened n ts⟩

variable {n} {ts : List (ℤ × Extended)} {t : ℤ × Extended} {i : ℤ} {k : ℕ}

theorem mem_placed {x : Extended} :
    (k, x) ∈ placed n ts ↔ ∃ i, (i, x) ∈ ts ∧ Position.find? n i = some k := by
  simp only [placed, List.mem_filterMap, Option.map_eq_some_iff, Prod.mk.injEq]
  constructor
  · rintro ⟨⟨i, _⟩, ht, _, hk, rfl, rfl⟩
    exact ⟨i, ht, hk⟩
  · rintro ⟨i, ht, hk⟩
    exact ⟨(i, x), ht, k, hk, rfl, rfl⟩

theorem lt_of_mem_placed : ∀ p ∈ placed n ts, p.1 < n := by
  rintro ⟨k, x⟩ hp
  obtain ⟨i, -, hi⟩ := mem_placed.mp hp
  exact Position.lt_of_find? hi

theorem mem_touched_placed :
    k ∈ touched (placed n ts) ↔ ∃ s ∈ ts, Position.find? n s.1 = some k ∧ s.2 ≠ 0 := by
  rw [mem_touched]
  simp only [mem_placed]
  grind

theorem placed_append (hk : Position.find? n t.1 = some k) :
    placed n (ts ++ [t]) = placed n ts ++ [(k, t.2)] := by
  simp [placed, hk]

theorem placed_append_of_none (hk : Position.find? n t.1 = none) :
    placed n (ts ++ [t]) = placed n ts := by
  simp [placed, hk]

theorem opened_append : opened n (ts ++ [t])
    = opened n ts ++ if opens n (ts ++ [t]) ts.length then [t.1] else [] := by
  have hbefore : ∀ j ∈ List.range ts.length, opens n (ts ++ [t]) j = opens n ts j := by
    intro j hj
    have hj := List.mem_range.mp hj
    rw [opens, opens, List.getElem?_append_left hj, List.take_append_of_le_length hj.le]
  have hindex : ∀ j ∈ (List.range ts.length).filter (opens n ts),
      ((ts ++ [t]).getD j (0, 0)).1 = (ts.getD j (0, 0)).1 := by
    intro j hj
    rw [List.getD_append _ _ _ _ (List.mem_range.mp (List.mem_of_mem_filter hj))]
  unfold opened
  rw [List.length_append, List.length_singleton, List.range_succ, List.filter_append,
    List.filter_congr hbefore, List.map_append, List.map_congr_left hindex]
  congr 1
  split_ifs with h <;> simp [h]

theorem opens_last (hk : Position.find? n t.1 = some k) :
    opens n (ts ++ [t]) ts.length = true ↔ t.2 ≠ 0 ∧ k ∉ touched (placed n ts) := by
  rw [mem_touched_placed]
  simp [opens, hk]
  grind

/-- The recorded indices name the touched slots, in this order. -/
theorem map_slotOf_opened (n : ℕ) (ts : List (ℤ × Extended)) :
    (∀ i ∈ opened n ts, Position.find? n i = some (slotOf n i))
      ∧ (opened n ts).map (slotOf n) = touched (placed n ts) := by
  -- on the last contribution, since whether one opens a slot depends on those before it
  induction ts using List.reverseRecOn with
  | nil => simp [opened, placed, touched]
  | append_singleton ts t ih =>
    obtain ⟨hfind, hmap⟩ := ih
    rw [opened_append]
    cases hk : Position.find? n t.1 with
    | none =>
      have hlast : opens n (ts ++ [t]) ts.length = false := by simp [opens, hk]
      rw [placed_append_of_none hk, hlast]
      simpa using ⟨hfind, hmap⟩
    | some k =>
      have hlast : opens n (ts ++ [t]) ts.length = true ↔ t.2 ≠ 0 ∧ k ∉ touched (placed n ts) :=
        opens_last hk
      have hslot : slotOf n t.1 = k := by rw [slotOf, hk, Option.getD_some]
      rw [placed_append hk, touched_append]
      grind

theorem length_opened (n : ℕ) (ts : List (ℤ × Extended)) :
    (opened n ts).length = (touched (placed n ts)).length := by
  rw [← (map_slotOf_opened n ts).2, List.length_map]

@[simp] theorem size_holding : (holding n ts).size = n := by simp [holding, size]

theorem holding_nil : holding n [] = .empty n := by
  have hzero : (List.range n).map (sums []) = List.replicate n 0 :=
    List.ext_getElem (by simp) fun i _ _ => by simp [sums]
  simp [holding, opened, placed, empty, hzero]

theorem getElem?_holding (hk : k < n) :
    (holding n ts).slots[k]? = some (sums (placed n ts) k) := by
  simp [holding, hk]

/-- A contribution that is zero or to an index that names no slot changes nothing. -/
theorem holding_append_of_idle (h : t.2 = 0 ∨ Position.find? n t.1 = none) :
    holding n (ts ++ [t]) = holding n ts := by
  have hlast : opens n (ts ++ [t]) ts.length = false := by
    rcases h with h | h <;> simp [opens, h]
  rw [holding, opened_append, hlast]
  cases hk : Position.find? n t.1 with
  | none => simp [holding, placed_append_of_none hk]
  | some k =>
    have h0 : t.2 = 0 := h.resolve_right (by simp [hk])
    simp [holding, placed_append hk, sums_append, h0]

/-- A contribution is added to its slot. The index is recorded if the slot was zero. -/
theorem holding_append (hk : Position.find? n t.1 = some k) (h0 : t.2 ≠ 0) :
    holding n (ts ++ [t]) = ⟨(holding n ts).slots.modify k (contribute · t.2),
      opened n ts ++ if sums (placed n ts) k = 0 then [t.1] else []⟩ := by
  have hlast : opens n (ts ++ [t]) ts.length = true ↔ sums (placed n ts) k = 0 := by
    rw [opens_last hk, ← sums_ne_zero_iff]
    tauto
  rw [holding, opened_append, if_congr hlast rfl rfl, placed_append hk]
  congr 1
  refine List.ext_getElem (by simp [holding]) fun i hi _ => ?_
  by_cases h : k = i <;> simp [holding, sums_append, h, h0]

end Given

/-! ## One addition -/

/-- A value that can be added is ignored if it is zero. -/
theorem isZero_iff_of_toAddend {v : Literal Extended} {x : Extended} (h : v.toAddend = .ok x) :
    v.isZero = true ↔ x = 0 := by
  cases v with
  | absent | text | list => cases h
  | real y =>
    obtain rfl := Except.ok.inj h
    rw [isZero_real, Extended.isZero_iff]
  | truth b =>
    obtain rfl := Except.ok.inj h
    cases b <;> decide +kernel
  | integer i =>
    have hi : Except.ok (.finite i) = (Except.ok x : Except (Fault Extended) Extended) := by
      unfold Literal.toAddend Literal.toScalar at h
      dsimp only at h
      split_ifs at h
      exact h
    obtain rfl := Except.ok.inj hi
    show Extended.eq (.finite i) (.finite 0) = true ↔ Extended.finite i = .finite 0
    simp [Extended.eq]

variable (acc : Accumulator Extended) (i : ℤ) (v : Literal Extended)

/-- The accumulator with an index noted, if the slot it names is zero. -/
def noted (k : ℕ) : Accumulator Extended :=
  if acc.slots[k]? = some 0 then { acc with recorded := acc.recorded ++ [i] } else acc

@[simp] theorem slots_noted (k : ℕ) : (acc.noted i k).slots = acc.slots := by
  unfold noted
  split_ifs <;> rfl

/-- What an addition does. Zero is ignored and an index that names no slot is refused, and so is one
for which there is no room. Otherwise the index is noted before it is seen whether the value can be
added. -/
theorem perform_add : (add i v).perform acc =
    if v.isZero = true then (.ok (), acc)
    else match acc.slot? i with
      | none => (.error .indexOutOfRange, acc)
      | some k =>
        if acc.slots[k]? = some 0 ∧ acc.size ≤ acc.recorded.length then
          (.error .indexOutOfRange, acc)
        else match v.toAddend with
          | .error e => (.error e, acc.noted i k)
          | .ok x => (.ok (), ⟨acc.slots.modify k (contribute · x), (acc.noted i k).recorded⟩) := by
  have hrecord : ∀ k, acc.slot? i = some k → (record i k).perform acc =
      if acc.slots[k]? = some 0 ∧ acc.size ≤ acc.recorded.length then
        (.error .indexOutOfRange, acc)
      else (.ok (), acc.noted i k) := by
    intro k hk
    -- the slot of an index exists, so only its value decides whether it is recorded
    have hlt : k < acc.slots.length := Position.lt_of_find? hk
    have hzero : (acc.slots[k]?).all Scalar.isZero = true ↔ acc.slots[k]? = some 0 := by
      simp [hlt, Extended.isZero_iff]
    unfold record noted
    rw [Action.perform_ofFun]
    grind
  unfold add
  split_ifs with h0
  · rfl
  · rw [Action.perform_get_bind]
    cases hk : acc.slot? i with
    | none => rfl
    | some k =>
      dsimp only
      rw [Action.perform_bind, hrecord k hk]
      split_ifs with hfull
      · rfl
      · cases v.toAddend with
        | error e => rfl
        | ok x =>
          rw [← acc.slots_noted i k]
          rfl

variable {acc i v} {n : ℕ} {ts : List (ℤ × Extended)} {k : ℕ} {x : Extended}

/-- An addition to a slot is one more contribution. There is room for its index, as there are not
more recorded ones than slots that are not zero. -/
theorem yields_add_holding (hk : Position.find? n i = some k) (hv : v.toAddend = .ok x) :
    (add i v).Yields (holding n ts) ⟨⟩ (holding n (ts ++ [(i, x)])) := by
  have hzero := isZero_iff_of_toAddend hv
  have hkn : k < n := Position.lt_of_find? hk
  have hslot : (holding n ts).slot? i = some k := by rw [slot?, size_holding, hk]
  rw [Action.Yields, perform_add, hslot, hv]
  dsimp only
  by_cases h0 : x = 0
  · rw [if_pos (hzero.mpr h0), holding_append_of_idle (.inl h0)]
  · have hroom : ¬ ((holding n ts).slots[k]? = some 0
        ∧ (holding n ts).size ≤ (holding n ts).recorded.length) := by
      rintro ⟨hslots, hfull⟩
      rw [getElem?_holding hkn, Option.some.injEq] at hslots
      have := length_touched_lt (placed n ts) lt_of_mem_placed hkn
        (mt (sums_ne_zero_iff _).mpr (not_not.mpr hslots))
      rw [size_holding, holding, length_opened] at hfull
      omega
    rw [if_neg (mt hzero.mp h0), if_neg hroom, holding_append hk h0]
    have hnoted : ((holding n ts).noted i k).recorded
        = opened n ts ++ if sums (placed n ts) k = 0 then [i] else [] := by
      rw [noted, getElem?_holding hkn]
      split_ifs <;> simp_all [holding]
    rw [hnoted]

/-! ## Clearing -/

/-- The records are enough to reset every slot. -/
theorem covers_holding (n : ℕ) (ts : List (ℤ × Extended)) : Covers n (holding n ts) where
  size := size_holding
  recorded k hk := by
    rw [getElem?_holding hk, Option.some.injEq]
    refine or_iff_not_imp_left.mpr fun h => ?_
    have hk : k ∈ (opened n ts).map (slotOf n) :=
      (map_slotOf_opened n ts).2 ▸ (sums_ne_zero_iff _).mp h
    obtain ⟨i, hi, rfl⟩ := List.mem_map.mp hk
    exact ⟨i, hi, (map_slotOf_opened n ts).1 i hi⟩

/-! ## Reading -/

/-- Whether a slot is shown. -/
def shows (ps : List (ℕ × Extended)) (k : ℕ) : Bool :=
  Scalar.le Scalar.zeroTol (Scalar.abs (sums ps k))

theorem stored_holding (hk : Position.find? n i = some k) :
    (holding n ts).stored i = sums (placed n ts) k := by
  rw [stored, slot?, size_holding, hk, Option.bind_some, getElem?_holding (Position.lt_of_find? hk),
    Option.getD_some]

theorem indices_holding (n : ℕ) (ts : List (ℤ × Extended)) :
    (holding n ts).indices = (opened n ts).filter fun i => shows (placed n ts) (slotOf n i) :=
  List.filter_congr fun i hi => by rw [stored_holding ((map_slotOf_opened n ts).1 i hi), shows]

theorem items_holding (n : ℕ) (ts : List (ℤ × Extended)) : (holding n ts).items
    = (holding n ts).indices.map fun i => (i, sums (placed n ts) (slotOf n i)) := by
  refine List.map_congr_left fun i hi => ?_
  rw [stored_holding ((map_slotOf_opened n ts).1 i (List.mem_of_mem_filter hi))]

/-- The slots that are shown are those of the indices that are. -/
theorem map_slotOf_indices (n : ℕ) (ts : List (ℤ × Extended)) :
    (holding n ts).indices.map (slotOf n)
      = (touched (placed n ts)).filter (shows (placed n ts)) := by
  rw [indices_holding, ← (map_slotOf_opened n ts).2, List.filter_map]
  rfl

/-- A slot that is shown was touched. -/
theorem mem_filter_shows (ps : List (ℕ × Extended)) (k : ℕ) :
    k ∈ (touched ps).filter (shows ps) ↔ shows ps k = true := by
  refine List.mem_filter.trans (and_iff_right_of_imp fun h => ?_)
  refine (sums_ne_zero_iff ps).mp fun hz => ?_
  rw [shows, hz] at h
  revert h
  decide +kernel

theorem toDense_holding (n : ℕ) (ts : List (ℤ × Extended)) : (holding n ts).toDense
    = (List.range n).map fun k =>
      if shows (placed n ts) k = true then sums (placed n ts) k else 0 := by
  have hslot : ∀ i ∈ (holding n ts).indices, (holding n ts).slot? i = some (slotOf n i) := by
    intro i hi
    rw [slot?, size_holding, (map_slotOf_opened n ts).1 i (List.mem_of_mem_filter hi)]
  have hempty : List.replicate n (0 : Extended) = (List.range n).map fun _ => 0 :=
    List.ext_getElem (by simp) fun i _ _ => by simp
  calc (holding n ts).toDense
      = (holding n ts).indices.foldl (fun dense i =>
          dense.set (slotOf n i) (sums (placed n ts) (slotOf n i))) (List.replicate n 0) := by
        rw [toDense, items_holding, List.foldl_map, size_holding]
        exact List.foldl_ext _ _ _ fun dense i hi => by rw [hslot i hi]
    _ = ((touched (placed n ts)).filter (shows (placed n ts))).foldl (fun dense k =>
          dense.set k (sums (placed n ts) k)) (List.replicate n 0) := by
        rw [← map_slotOf_indices, List.foldl_map]
    _ = _ := by
        rw [hempty, foldl_set_map_range]
        simp only [mem_filter_shows]

theorem value_holding (hk : Position.find? n i = some k) : (holding n ts).value i
    = .ok (if Scalar.lt (Scalar.abs (sums (placed n ts) k)) Scalar.zeroTol then 0
      else sums (placed n ts) k) := by
  rw [value, slot?, size_holding, hk, stored_holding hk]

/-! ## Exact contributions -/

/-- The trace of a cancellation. -/
def trace : ℚ := (Scalar.cancelled : Extended).rat

/-- The magnitude below which a sum is left out. -/
def tolerance : ℚ := (Scalar.zeroTol : Extended).rat

theorem trace_pos : 0 < trace := by decide +kernel

theorem tolerance_pos : 0 < tolerance := by decide +kernel

theorem cancelled_eq : (Scalar.cancelled : Extended) = .finite trace := rfl

theorem zeroTol_eq_tolerance : (Scalar.zeroTol : Extended) = .finite tolerance := rfl

/-- The exact sum of the contributions to a slot. -/
def total (ps : List (ℕ × Extended)) (k : ℕ) : ℚ :=
  (ps.map fun t => if t.1 = k then t.2.rat else 0).sum

/-- Whether a contribution makes a slot zero. -/
def cancels (ps : List (ℕ × Extended)) (k j : ℕ) : Bool :=
  (ps[j]?).any fun t => t.1 = k && t.2 ≠ 0 && Scalar.isZero (sums (ps.take j) k + t.2)

/-- The number of contributions that make a slot zero. -/
def cancellations (ps : List (ℕ × Extended)) (k : ℕ) : ℕ :=
  (List.range ps.length).countP (cancels ps k)

theorem cancellations_append (ps : List (ℕ × Extended)) (t : ℕ × Extended) (k : ℕ) :
    cancellations (ps ++ [t]) k
      = cancellations ps k + if t.1 = k ∧ t.2 ≠ 0 ∧ sums ps k + t.2 = 0 then 1 else 0 := by
  have hbefore : ∀ j ∈ List.range ps.length, cancels (ps ++ [t]) k j = cancels ps k j := by
    intro j hj
    have hj := List.mem_range.mp hj
    rw [cancels, cancels, List.getElem?_append_left hj, List.take_append_of_le_length hj.le]
  have hlast : cancels (ps ++ [t]) k ps.length = true
      ↔ t.1 = k ∧ t.2 ≠ 0 ∧ sums ps k + t.2 = 0 := by
    simp [cancels, Extended.isZero_iff, and_assoc]
  unfold cancellations
  rw [List.length_append, List.length_singleton, List.range_succ, List.countP_append,
    List.countP_congr fun j hj => by rw [hbefore j hj]]
  simp only [List.countP_singleton, hlast]

theorem cancellations_le (ps : List (ℕ × Extended)) (k : ℕ) :
    cancellations ps k ≤ (ps.filter fun t => t.1 = k).length := by
  induction ps using List.reverseRecOn with
  | nil => simp [cancellations]
  | append_singleton ps t ih =>
    rw [cancellations_append, List.filter_append, List.length_append]
    by_cases hk : t.1 = k
    · have hone : [t].filter (fun t => t.1 = k) = [t] := by simp [hk]
      rw [hone, List.length_singleton]
      split_ifs <;> omega
    · rw [if_neg fun h => hk h.1]
      omega

/-- A slot holds the exact sum of the contributions and a trace of each cancellation. -/
theorem sums_eq_total {ps : List (ℕ × Extended)} (hps : ∀ t ∈ ps, Scalar.isFinite t.2 = true)
    (k : ℕ) : sums ps k = .finite (total ps k + cancellations ps k * trace) := by
  induction ps using List.reverseRecOn with
  | nil => simp [sums, total, cancellations, Extended.zero_eq]
  | append_singleton ps t ih =>
    have hsum := ih fun s hs => hps s (by simp [hs])
    obtain ⟨j, x⟩ := t
    obtain ⟨q, rfl⟩ : ∃ q, x = .finite q := Extended.isFinite_iff.mp (hps (j, x) (by simp))
    have htotal : total (ps ++ [(j, .finite q)]) k = total ps k + if j = k then q else 0 := by
      simp [total]
    rw [sums_append, htotal, cancellations_append, hsum]
    simp only [Extended.finite_add, Extended.zero_eq, ne_eq, Extended.finite.injEq]
    by_cases hj : j = k ∧ q ≠ 0
    · obtain ⟨rfl, hq⟩ := hj
      rw [if_pos ⟨rfl, hq⟩, if_pos rfl, contribute]
      simp only [Extended.finite_add, Extended.isZero_finite, decide_eq_true_eq, cancelled_eq]
      split_ifs with hz hcount hcount
      · push_cast
        congr 1
        linarith
      · exact absurd ⟨trivial, hq, hz⟩ hcount
      · exact absurd hcount.2.2 hz
      · push_cast
        congr 1
        ring
    · have hcount : ¬ (j = k ∧ ¬ q = 0 ∧ total ps k + cancellations ps k * trace + q = 0) :=
        fun h => hj ⟨h.1, h.2.1⟩
      rw [if_neg hj, if_neg hcount]
      rcases not_and_or.mp hj with hj | hq
      · simp [hj]
      · simp [not_not.mp hq]

end Accumulator

end RobustOpt
