import RobustOpt.Binary64
import RobustOpt.Expression.Uncertain
import RobustOpt.Proofs.Frame
import RobustOpt.Proofs.Master

/-!
# Filling an accumulator

Every slot that is not zero is named by a record, so that clearing resets it. An addition keeps this
even if it is refused, because a slot is recorded before it is changed. The same holds for whatever
is made of additions and clearings. From an empty accumulator contributions to its slots are all
taken, and what it shows then is a function of them.

Of the scalars nothing is used but that zero is told from the trace that a cancellation leaves. Thus
all this is true of rounded sums as well as of exact ones.

## Main definitions

* `Scalar.TellsZero`: what is asked of the scalars.
* `Accumulator.Covers`: every slot that is not zero is recorded.
* `Accumulator.filled`: the accumulator after contributions.
* `Accumulator.Lists`: the items that contributions are shown as.

## Main statements

* `Accumulator.Covers.add`: additions keep what is recorded, be they refused or not.
* `Accumulator.clear_eq_empty`: clearing resets every slot.
* `Accumulator.yields_forM_add`: contributions fill an empty accumulator.
* `Uncertain.yields_collectIn_listed`: collecting in a scratch accumulator.
-/

namespace RobustOpt

theorem eraseDups_concat (l : List ℕ) (i : ℕ) :
    (l ++ [i]).eraseDups = if i ∈ l then l.eraseDups else l.eraseDups ++ [i] := by
  rw [List.eraseDups_append]
  split_ifs with h <;> simp [List.removeAll, h, List.eraseDups_cons]

/-- Of the numbers below `n` less than `n` are left if one is left out. -/
theorem length_lt_of_nodup {l : List ℕ} {n k : ℕ} (hnodup : l.Nodup) (hlt : ∀ j ∈ l, j < n)
    (hk : k < n) (hkl : k ∉ l) : l.length < n := by
  have hsub : k :: l ⊆ List.range n := by
    intro j hj
    rcases List.mem_cons.mp hj with rfl | hj
    · exact List.mem_range.mpr hk
    · exact List.mem_range.mpr (hlt j hj)
  simpa [Nat.succ_le_iff] using ((List.nodup_cons.mpr ⟨hkl, hnodup⟩).subperm hsub).length_le

/-- Zero is told from the trace that a cancellation leaves. -/
class Scalar.TellsZero (α : Type) [Scalar α] : Prop where
  isZero_zero : Scalar.isZero (0 : α) = true
  isZero_cancelled : Scalar.isZero (Scalar.cancelled : α) = false

instance : Scalar.TellsZero Extended := ⟨rfl, by decide +kernel⟩

instance : Scalar.TellsZero Float := ⟨by decide +kernel, by decide +kernel⟩

namespace Accumulator

open Scalar.TellsZero

variable {α : Type} [Scalar α] {n k : ℕ} {i : ℤ} {acc acc' : Accumulator α}

/-! ## Records of slots -/

/-- Every slot that is not zero is recorded. -/
structure Covers (n : ℕ) (acc : Accumulator α) : Prop where
  size : acc.size = n
  recorded : ∀ k < n, acc.slots[k]? = some 0
    ∨ ∃ i ∈ acc.recorded, Position.find? n i = some k

theorem covers_empty (n : ℕ) : Covers n (.empty n : Accumulator α) where
  size := size_empty n
  recorded k hk := .inl (by simp [empty, hk])

theorem clear_cons (slots : List α) (i : ℤ) (is : List ℤ) : clear ⟨slots, i :: is⟩
    = clear ⟨(Position.find? slots.length i).elim slots (slots.set · 0), is⟩ := by
  cases h : Position.find? slots.length i <;> simp [clear, slot?, Accumulator.size, h]

/-- Resetting the recorded slots resets all that are not zero. -/
theorem clear_eq_empty (h : Covers n acc) : acc.clear = .empty n := by
  obtain ⟨slots, recorded⟩ := acc
  -- on the records that are left to reset, which cover the slots that are not zero yet
  induction recorded generalizing slots with
  | nil =>
    have hzero : slots = List.replicate n 0 := by
      refine List.ext_getElem (by simpa [Accumulator.size] using h.size) fun k hk _ => ?_
      have := h.recorded k (h.size ▸ hk)
      simpa [hk] using this
    rw [hzero]
    rfl
  | cons i is ih =>
    rw [clear_cons]
    refine ih _ ⟨?_, fun k hk => ?_⟩
    · have := h.size
      cases Position.find? slots.length i <;> simpa [Accumulator.size] using this
    · have hlen : slots.length = n := h.size
      have := h.recorded k hk
      cases hi : Position.find? slots.length i with
      | none => grind
      | some j =>
        simp only [Option.elim_some, List.getElem?_set]
        grind

theorem keeps_clear : (modify clear : Action (Accumulator α) (Fault α) Unit).Keeps (Covers n) :=
  Action.keeps_modify fun _ h => clear_eq_empty h ▸ covers_empty n

/-- An index is recorded if the slot is zero, for which there has to be room. -/
theorem perform_record (hk : k < acc.size) : (record i k).perform acc =
    if Scalar.isZero (acc.slots.getD k 0) = true then
      if acc.recorded.length < acc.size then
        (.ok (), { acc with recorded := acc.recorded ++ [i] })
      else (.error .indexOutOfRange, acc)
    else (.ok (), acc) := by
  have hslot : (acc.slots[k]?).all Scalar.isZero = Scalar.isZero (acc.slots.getD k 0) := by
    have hk : k < acc.slots.length := hk
    simp [hk]
  rw [record, Action.perform_ofFun, hslot]

theorem Covers.record (h : Covers n acc) (hk : Position.find? n i = some k) :
    Covers n ((record i k).perform acc).2 := by
  rw [perform_record (h.size ▸ Position.lt_of_find? hk)]
  split_ifs
  · exact ⟨h.size, fun j hj => (h.recorded j hj).imp_right fun ⟨i, hi, hj⟩ =>
      ⟨i, List.mem_append_left _ hi, hj⟩⟩
  · exact h
  · exact h

section Distinct

variable [Scalar.TellsZero α]

/-- A slot that may be changed is recorded. -/
theorem Covers.exists_recorded (h : Covers n acc) (hk : Position.find? n i = some k)
    (hy : (Accumulator.record i k).Yields acc ⟨⟩ acc') :
    ∃ j ∈ acc'.recorded, Position.find? n j = some k := by
  have hlt : k < n := Position.lt_of_find? hk
  rw [Action.Yields, perform_record (h.size ▸ hlt)] at hy
  split_ifs at hy with hzero hroom
  · obtain rfl := (Prod.mk.inj hy).2
    exact ⟨i, by simp, hk⟩
  · cases (Prod.mk.inj hy).1
  · obtain rfl := (Prod.mk.inj hy).2
    refine (h.recorded k hlt).resolve_left fun hslot => hzero ?_
    rw [List.getD_eq_getElem?_getD, hslot]
    exact isZero_zero

/-- No slot is changed without a record, also if the addition is refused. -/
theorem Covers.add (h : Covers n acc) (i : ℤ) (v : Literal α) :
    Covers n ((add i v).perform acc).2 := by
  unfold Accumulator.add
  split_ifs
  · exact h
  · rw [Action.perform_get_bind]
    cases hk : acc.slot? i with
    | none => exact h
    | some k =>
      have hk : Position.find? n i = some k := h.size ▸ hk
      refine Action.perform_bind_snd (h.record hk) fun _ acc' hy => ?_
      have hacc' : Covers n acc' := by
        have := h.record hk
        rwa [show (Accumulator.record i k).perform acc = _ from hy] at this
      have hnamed := h.exists_recorded hk hy
      cases v.toAddend with
      | error e => exact hacc'
      | ok x =>
        show Covers n ⟨acc'.slots.modify k (contribute · x), acc'.recorded⟩
        refine ⟨by simpa [Accumulator.size] using hacc'.size, fun j hj => ?_⟩
        rw [List.getElem?_modify]
        by_cases hkj : k = j
        · exact .inr (hkj ▸ hnamed)
        · simpa [hkj] using hacc'.recorded j hj

end Distinct

/-! ## Contributions -/

/-- A contribution that is not ignored. -/
def counts (x : α) : Bool := !(Literal.real x).isZero

/-- The value of a slot after contributions. -/
def level (ts : List (ℕ × α)) (k : ℕ) : α :=
  ts.foldl (fun old t => if t.1 = k ∧ counts t.2 = true then contribute old t.2 else old) 0

/-- The slots of the contributions that count, in the order of their first ones. -/
def entered (ts : List (ℕ × α)) : List ℕ :=
  ((ts.filter fun t => counts t.2).map Prod.fst).eraseDups

/-- The empty accumulator with `n` slots, after contributions. -/
def filled (n : ℕ) (ts : List (ℕ × α)) : Accumulator α :=
  ⟨(List.range n).map (level ts), (entered ts).map Nat.cast⟩

section Contributions

variable (ts : List (ℕ × α)) (t : ℕ × α)

theorem filled_nil (n : ℕ) : filled n ([] : List (ℕ × α)) = .empty n := by
  have hzero : (List.range n).map (level ([] : List (ℕ × α))) = List.replicate n 0 :=
    List.ext_getElem (by simp) fun i _ _ => by simp [level]
  simp [filled, entered, empty, hzero]

@[simp] theorem size_filled : (filled n ts).size = n := by simp [filled, size]

theorem level_append (k : ℕ) : level (ts ++ [t]) k
    = if t.1 = k ∧ counts t.2 = true then contribute (level ts k) t.2 else level ts k := by
  simp [level]

theorem mem_entered : k ∈ entered ts ↔ ∃ t ∈ ts, t.1 = k ∧ counts t.2 = true := by
  simp only [entered, List.mem_eraseDups, List.mem_map, List.mem_filter]
  grind

theorem entered_append : entered (ts ++ [t])
    = if counts t.2 = true ∧ t.1 ∉ entered ts then entered ts ++ [t.1] else entered ts := by
  unfold entered
  cases h : counts t.2 with
  | false => simp [List.filter_append, h]
  | true =>
    rw [List.filter_append, List.map_append, List.filter_cons_of_pos (by simpa using h),
      List.filter_nil, List.map_singleton, eraseDups_concat]
    simp only [true_and, List.mem_eraseDups, ite_not]

theorem nodup_entered : (entered ts).Nodup := nodup_eraseDups _

variable {ts} in
theorem lt_of_mem_entered (hts : ∀ t ∈ ts, t.1 < n) (hk : k ∈ entered ts) : k < n := by
  obtain ⟨t, ht, rfl, -⟩ := (mem_entered ts).mp hk
  exact hts t ht

/-- A slot that got a contribution is not zero. -/
theorem isZero_contribute [Scalar.TellsZero α] (old x : α) :
    Scalar.isZero (contribute old x) = false := by
  unfold contribute
  dsimp only
  split_ifs with h
  · exact isZero_cancelled
  · exact Bool.eq_false_iff.mpr h

/-- A slot is zero as long as nothing was added to it. -/
theorem isZero_level [Scalar.TellsZero α] :
    Scalar.isZero (level ts k) = true ↔ k ∉ entered ts := by
  induction ts using List.reverseRecOn with
  | nil => simp [level, entered, isZero_zero]
  | append_singleton ts t ih =>
    have := isZero_contribute (level ts k) t.2
    rw [level_append, entered_append]
    grind

/-- A contribution that is ignored changes nothing. -/
theorem filled_append_of_idle (hc : counts t.2 = false) : filled n (ts ++ [t]) = filled n ts := by
  simp [filled, entered_append, level_append, hc]

theorem slots_filled_append (hc : counts t.2 = true) :
    (filled n (ts ++ [t])).slots = (filled n ts).slots.modify t.1 (contribute · t.2) := by
  refine List.ext_getElem (by simp [filled]) fun j hj _ => ?_
  by_cases h : t.1 = j <;> simp [filled, level_append, hc, h]

variable {ts t} [Scalar.TellsZero α]

/-- The index is recorded if the slot was not entered before. There is room for it, as no slot is
entered twice. -/
theorem yields_record_filled (hts : ∀ t ∈ ts, t.1 < n) (ht : t.1 < n) (hc : counts t.2 = true) :
    (record t.1 t.1).Yields (filled n ts) ⟨⟩
      ⟨(filled n ts).slots, (filled n (ts ++ [t])).recorded⟩ := by
  have hlevel : (filled n ts).slots.getD t.1 0 = level ts t.1 := by simp [filled, ht]
  rw [Action.Yields, perform_record (by simpa using ht), hlevel, size_filled]
  by_cases hentered : t.1 ∈ entered ts
  · rw [if_neg (mt (isZero_level ts).mp (not_not.mpr hentered))]
    simp [filled, entered_append, hentered]
  · have hroom : (entered ts).length < n :=
      length_lt_of_nodup (nodup_entered ts) (fun _ => lt_of_mem_entered hts) ht hentered
    rw [if_pos ((isZero_level ts).mpr hentered), if_pos (by simpa [filled] using hroom)]
    simp [filled, entered_append, hentered, hc]

/-- One contribution. The slot is recorded before it is changed, and only if it was zero. -/
theorem yields_add (hts : ∀ t ∈ ts, t.1 < n) (ht : t.1 < n) :
    (add t.1 (.real t.2)).Yields (filled n ts) ⟨⟩ (filled n (ts ++ [t])) := by
  unfold add
  cases hc : counts t.2 with
  | false =>
    have hzero : (Literal.real t.2).isZero = true := by simpa [counts] using hc
    rw [if_pos hzero, filled_append_of_idle ts t hc]
    rfl
  | true =>
    have hzero : ¬ (Literal.real t.2).isZero = true := by simpa [counts] using hc
    have hslot : (filled n ts).slot? t.1 = some t.1 := by
      rw [slot?, size_filled, Position.find?_natCast ht]
    have hslots := slots_filled_append (n := n) ts t hc
    rw [if_neg hzero, Action.yields_get_bind, hslot]
    refine Action.yields_bind.mpr ⟨_, _, yields_record_filled hts ht hc, ?_⟩
    exact Action.yields_modify.mpr (congrArg (Accumulator.mk · _) hslots.symm)

/-- The contributions of a whole list. -/
theorem yields_forM_add {β : Type} (f : β → ℕ × α) {l : List β} (hl : ∀ b ∈ l, (f b).1 < n) :
    (l.forM fun b => add (f b).1 (.real (f b).2)).Yields (.empty n) ⟨⟩ (filled n (l.map f)) := by
  obtain ⟨acc, hy, rfl⟩ := Action.exists_yields_forM
    (f := fun b => add (f b).1 (.real (f b).2)) (l := l)
    (fun done acc => acc = filled n (done.map f)) (filled_nil n).symm (by
      rintro done b - hinit rfl
      have hlt : ∀ c ∈ done ++ [b], (f c).1 < n := fun c hc => hl c (hinit.subset hc)
      have hdone : ∀ t ∈ done.map f, t.1 < n :=
        List.forall_mem_map.mpr fun c hc => hlt c (by simp [hc])
      exact ⟨_, yields_add hdone (hlt b (by simp)), by simp⟩)
  exact hy

end Contributions

/-! ## What is listed -/

/-- The position of the first contribution to a slot that counts. -/
def firstAt (ts : List (ℕ × α)) (k : ℕ) : ℕ := ts.findIdx fun t => t.1 = k && counts t.2

/-- Whether a slot is shown after contributions. -/
def apparent (ts : List (ℕ × α)) (k : ℕ) : Bool :=
  Scalar.le Scalar.zeroTol (Scalar.abs (level ts k))

/-- The items after contributions. -/
def listed (ts : List (ℕ × α)) : List (ℕ × α) :=
  ((entered ts).filter (apparent ts)).map fun k => (k, level ts k)

section Listed

variable (ts : List (ℕ × α))

/-- A contribution that is not the first to its slot does not change which one is. -/
theorem firstAt_append (t : ℕ × α) (hk : k ∈ entered ts) :
    firstAt (ts ++ [t]) k = firstAt ts k ∧ firstAt ts k < ts.length := by
  obtain ⟨s, hs, hcounts⟩ := (mem_entered ts).mp hk
  have hlt : firstAt ts k < ts.length :=
    List.findIdx_lt_length_of_exists ⟨s, hs, by simpa using hcounts⟩
  refine ⟨?_, hlt⟩
  rw [firstAt, List.findIdx_append]
  exact if_pos hlt

theorem firstAt_last {t : ℕ × α} (hc : counts t.2 = true) (hnew : t.1 ∉ entered ts) :
    firstAt (ts ++ [t]) t.1 = ts.length := by
  have hnone : ¬ firstAt ts t.1 < ts.length := by
    intro hlt
    have := List.findIdx_getElem (w := hlt)
    simp only [Bool.and_eq_true, decide_eq_true_eq] at this
    exact hnew ((mem_entered ts).mpr ⟨_, List.getElem_mem hlt, this⟩)
  rw [firstAt, List.findIdx_append]
  refine (if_neg hnone).trans ?_
  simp [List.findIdx_cons, hc]

/-- Slots are entered in the order of the first contributions to them. -/
theorem pairwise_entered : (entered ts).Pairwise fun j k => firstAt ts j < firstAt ts k := by
  induction ts using List.reverseRecOn with
  | nil => simp [entered]
  | append_singleton ts t ih =>
    have hold : (entered ts).Pairwise fun j k =>
        firstAt (ts ++ [t]) j < firstAt (ts ++ [t]) k := by
      refine ih.imp_of_mem fun hj hk h => ?_
      rwa [(firstAt_append ts t hj).1, (firstAt_append ts t hk).1]
    rw [entered_append]
    split_ifs with h
    · refine List.pairwise_append.mpr ⟨hold, List.pairwise_singleton .., fun j hj k hk => ?_⟩
      obtain rfl := List.mem_singleton.mp hk
      obtain ⟨hsame, hlt⟩ := firstAt_append ts t hj
      rwa [hsame, firstAt_last ts h.1 h.2]
    · exact hold

/-- Each slot is listed at most once, in the order of the first contributions that count, with what
they add up to, unless this is negligible. -/
structure Lists (items : List (ℕ × α)) : Prop where
  mem : ∀ k x, (k, x) ∈ items ↔ (∃ t ∈ ts, t.1 = k ∧ counts t.2 = true) ∧ x = level ts k
    ∧ Scalar.le Scalar.zeroTol (Scalar.abs x) = true
  nodup : (items.map Prod.fst).Nodup
  ordered : items.Pairwise fun p q => firstAt ts p.1 < firstAt ts q.1

theorem lists_listed : Lists ts (listed ts) where
  mem k x := by
    simp only [listed, List.mem_map, List.mem_filter, mem_entered, apparent]
    grind
  nodup := by
    rw [listed, List.map_map]
    exact (List.map_id _).symm ▸ (nodup_entered ts).filter _
  ordered := List.pairwise_map.mpr ((pairwise_entered ts).filter _)

variable {ts}

theorem stored_filled (hk : k < n) : (filled n ts).stored (k : ℤ) = level ts k := by
  rw [stored, slot?, size_filled, Position.find?_natCast hk]
  simp [filled, hk]

theorem items_filled (hts : ∀ t ∈ ts, t.1 < n) :
    (filled n ts).items.map (fun p => (p.1.toNat, p.2)) = listed ts := by
  have hstored : ∀ k ∈ entered ts, (filled n ts).stored (k : ℤ) = level ts k := fun k hk =>
    stored_filled (lt_of_mem_entered hts hk)
  have hindices : (filled n ts).indices = ((entered ts).filter (apparent ts)).map Nat.cast := by
    show ((entered ts).map Nat.cast).filter _ = _
    rw [List.filter_map]
    congr 1
    exact List.filter_congr fun k hk => by rw [Function.comp_apply, hstored k hk, apparent]
  rw [items, hindices, List.map_map, List.map_map, listed]
  refine List.map_congr_left fun k hk => ?_
  simp [hstored k (List.mem_of_mem_filter hk)]

end Listed

end Accumulator

/-! ## Collecting the terms of an expression -/

namespace Uncertain

variable {α : Type} (e : Uncertain α) {n : ℕ}

/-- The terms as additions to the positions of their parameters. -/
def additions : List (ℕ × α) := e.terms.map fun t => (t.1.index, t.2)

theorem index_lt_span : ∀ t ∈ e.terms, t.1.index < e.span := by
  have hfold : ∀ (ts : List (Parameter α × α)) (k : ℕ),
      let span := ts.foldl (fun n t => max n (t.1.index + 1)) k
      k ≤ span ∧ ∀ t ∈ ts, t.1.index < span := by
    intro ts
    induction ts with
    | nil => simp
    | cons t ts ih =>
      intro k
      obtain ⟨hk, hts⟩ := ih (max k (t.1.index + 1))
      rw [List.foldl_cons]
      refine ⟨by omega, fun s hs => ?_⟩
      rcases List.mem_cons.mp hs with rfl | hs
      · omega
      · exact hts s hs
  exact (hfold e.terms 0).2

variable [Scalar α] [Scalar.TellsZero α]

/-- Collecting leaves no slot without a record, also if it breaks off at a parameter for which the
accumulator is too short. -/
theorem keeps_collectIn : e.collectIn.Keeps (Accumulator.Covers n) := by
  refine Action.Keeps.ite (Action.keeps_pure _) (Accumulator.keeps_clear.bind fun _ => ?_)
  refine (Action.Keeps.forM fun t _ _ h => h.add t.1.index (.real t.2)).bind fun _ => ?_
  exact Action.Keeps.get_bind fun acc => Accumulator.keeps_clear.bind fun _ => Action.keeps_pure _

/-- Collecting in a scratch accumulator that is empty once it is cleared. It ends up empty, unless
there is nothing to collect. -/
theorem yields_collectIn_listed (acc : Accumulator α) (hclear : acc.clear = .empty n)
    (hlt : ∀ t ∈ e.terms, t.1.index < n) :
    e.collectIn.Yields acc (Accumulator.listed e.additions)
      (if e.terms.isEmpty then acc else .empty n) := by
  have hadditions : ∀ t ∈ e.additions, t.1 < n := List.forall_mem_map.mpr hlt
  have hfill := Accumulator.yields_forM_add (fun t : Parameter α × α => (t.1.index, t.2)) hlt
  have hcovers : Accumulator.Covers n (Accumulator.filled n e.additions) :=
    (Action.Keeps.forM fun t _ _ h => h.add t.1.index (.real t.2)).yields hfill
      (Accumulator.covers_empty n)
  unfold collectIn
  split_ifs with hnil
  · simp [additions, List.isEmpty_iff.mp hnil, Accumulator.listed, Accumulator.entered]
  · rw [Action.yields_modify_bind, hclear]
    refine Action.yields_bind.mpr ⟨⟨⟩, _, hfill, ?_⟩
    rw [Action.yields_get_bind, Action.yields_modify_bind, Action.yields_pure]
    exact ⟨Accumulator.items_filled hadditions, Accumulator.clear_eq_empty hcovers⟩

/-- What is collected does not depend on the accumulator. -/
theorem collect_eq_listed : e.collect = Accumulator.listed e.additions := by
  have hy := e.yields_collectIn_listed (.empty e.span) rfl e.index_lt_span
  rw [collect, hy]

end Uncertain

end RobustOpt
