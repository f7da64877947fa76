import Mathlib.Algebra.BigOperators.Group.List.Basic
import Mathlib.Data.List.Induction
import Mathlib.Data.List.Nodup
import RobustOpt.Proofs.Protocol

/-!
# Owners and their indices

The calls of a registry come in any order, repeat registrations or conflict with earlier ones. The
first call for an index decides who owns it, so that a registry is the list of the calls that are
the first for their index. Its views are then inverse to each other, in the order of these calls,
and they are what one dictionary from indices to owners and one from owners to indices hold if both
are kept up call by call. Equality of indices is any equivalence: different keys may be equal.

## Main definitions

* `Registry.after`: the registry after calls, refused ones included.
* `Registry.rank`: the position of the first call for an index.
* `Registry.Consistent`: the views of a registry are inverse to each other and in order.
* `Registry.Tables`: a registry kept in two dictionaries.

## Main statements

* `Registry.entries_after`: every entry is the first call for its index.
* `Registry.register_tables`: a call does the same to the dictionaries as to the registry.
* `Registry.consistent_after`: what holds after any calls.
-/

namespace RobustOpt

namespace Registry

variable {ι κ : Type} [BEq ι] [DecidableEq κ]

/-- The registry after a call, which changes nothing if it is refused. -/
def record (r : Registry ι κ) (call : ι × κ) : Registry ι κ :=
  match r.register call.1 call.2 with
  | .ok r => r
  | .error _ => r

/-- The registry after calls in order. -/
def after (calls : List (ι × κ)) : Registry ι κ := calls.foldl record empty

omit [DecidableEq κ] in
/-- The position of the first call for an index. -/
def rank (calls : List (ι × κ)) (i : ι) : ℕ := calls.findIdx fun c => c.1 == i

/-! ## Single calls -/

section Calls

variable (r : Registry ι κ) (c : ι × κ)

/-- Only the first call for an index is noted. -/
theorem record_eq : r.record c
    = if (r.owner? c.1).isSome = true then r else ⟨r.entries ++ [c]⟩ := by
  unfold record register
  cases h : r.owner? c.1 with
  | none => simp
  | some s =>
    by_cases hs : (s == c.2) = true <;> simp [hs]

theorem after_append (calls more : List (ι × κ)) :
    after (calls ++ more) = more.foldl record (after calls) := List.foldl_append

theorem after_concat (calls : List (ι × κ)) : after (calls ++ [c]) = (after calls).record c :=
  after_append calls [c]

omit [DecidableEq κ] in
theorem owner?_congr [EquivBEq ι] {i j : ι} (h : (i == j) = true) : r.owner? i = r.owner? j := by
  unfold owner?
  simp only [BEq.congr_right h]

/-- The owner of an index after a call is the one before it, if there is one. -/
theorem owner?_record [EquivBEq ι] (i : ι) : (r.record c).owner? i
    = (r.owner? i).or (if (c.1 == i) = true then some c.2 else none) := by
  rw [record_eq]
  split_ifs with hknown hi
  · rw [r.owner?_congr hi] at hknown
    exact (Option.or_of_isSome hknown).symm
  · simp
  · simp [owner?, List.find?_append, *]
  · simp [owner?, List.find?_append, *]

end Calls

/-! ## First calls -/

section FirstCalls

variable [EquivBEq ι] (calls : List (ι × κ))

/-- The owner of an index is the set of the first call for it. -/
theorem owner?_after (i : ι) :
    (after calls).owner? i = (calls.find? fun c => c.1 == i).map Prod.snd := by
  induction calls using List.reverseRecOn with
  | nil => rfl
  | append_singleton calls c ih =>
    rw [after_concat, owner?_record, ih, List.find?_append]
    cases calls.find? fun c => c.1 == i <;> by_cases h : (c.1 == i) = true <;> simp [h]

omit [DecidableEq κ] [EquivBEq ι] in
theorem rank_append {calls : List (ι × κ)} {i : ι} (h : rank calls i < calls.length)
    (more : List (ι × κ)) : rank (calls ++ more) i = rank calls i := by
  rw [rank, List.findIdx_append, if_pos (by exact h), ← rank]

/-- Every entry is the first call for its index, and the entries are in the order of the calls. -/
theorem entries_after :
    (∀ c ∈ (after calls).entries, c ∈ calls ∧ calls.find? (fun d => d.1 == c.1) = some c)
      ∧ (after calls).entries.Pairwise fun c d => rank calls c.1 < rank calls d.1 := by
  induction calls using List.reverseRecOn with
  | nil => exact ⟨by simp [after, empty], .nil⟩
  | append_singleton calls c ih =>
    obtain ⟨hfirst, hordered⟩ := ih
    have hlt : ∀ d ∈ (after calls).entries, rank calls d.1 < calls.length := fun d hd =>
      List.findIdx_lt_length_of_exists ⟨d, (hfirst d hd).1, BEq.rfl⟩
    -- old entries have their first call among the earlier ones, so that their ranks are kept
    have hold : (after calls).entries.Pairwise
        fun d e => rank (calls ++ [c]) d.1 < rank (calls ++ [c]) e.1 :=
      hordered.imp_of_mem fun hd he h => by rwa [rank_append (hlt _ hd), rank_append (hlt _ he)]
    have hkept : ∀ d ∈ (after calls).entries, d ∈ calls ++ [c]
        ∧ (calls ++ [c]).find? (fun e => e.1 == d.1) = some d := fun d hd =>
      ⟨List.mem_append_left _ (hfirst d hd).1, by
        rw [List.find?_append, (hfirst d hd).2, Option.some_or]⟩
    rw [after_concat, record_eq]
    split_ifs with hknown
    · exact ⟨hkept, hold⟩
    · have hnone : calls.find? (fun d => d.1 == c.1) = none := by
        rw [owner?_after] at hknown
        simpa using hknown
      have hrank : rank (calls ++ [c]) c.1 = calls.length := by
        have hlen : calls.findIdx (fun d => d.1 == c.1) = calls.length :=
          List.findIdx_eq_length.mpr fun d hd => by simpa using List.find?_eq_none.mp hnone d hd
        simp [rank, List.findIdx_append, hlen]
      refine ⟨List.forall_mem_append.mpr ⟨hkept, List.forall_mem_singleton.mpr ?_⟩, ?_⟩
      · refine ⟨by simp, ?_⟩
        rw [List.find?_append, hnone]
        simp
      · refine List.pairwise_append.mpr ⟨hold, List.pairwise_singleton _ _, fun d hd e he => ?_⟩
        rw [List.mem_singleton.mp he, hrank, rank_append (hlt d hd)]
        exact hlt d hd

end FirstCalls

/-! ## Views -/

section Views

omit [BEq ι] in
theorem mem_indices {r : Registry ι κ} {s : κ} {i : ι} : i ∈ r.indices s ↔ (i, s) ∈ r.entries := by
  simp [indices]

omit [BEq ι] in
theorem mem_owners {r : Registry ι κ} {s : κ} : s ∈ r.owners ↔ ∃ i, (i, s) ∈ r.entries := by
  simp [owners, mem_firsts]

/-- The first occurrences are in the order of the items they come from. -/
theorem pairwise_firsts {β : Type} {R : β → β → Prop} (f : β → κ) {l : List β}
    (h : l.Pairwise R) :
    (firsts (l.map f)).Pairwise fun s t => ∀ d ∈ l, f d = t → ∃ c ∈ l, f c = s ∧ R c d := by
  induction h with
  | nil => exact .nil
  | @cons a l ha _ ih =>
    rw [List.map_cons, firsts]
    refine List.pairwise_cons.mpr ⟨fun t ht d hd hdt => ?_, (ih.filter _).imp_of_mem ?_⟩
    · have hne : a ≠ d := by
        rintro rfl
        simp [hdt] at ht
      exact ⟨a, by simp, rfl, ha d ((List.mem_cons.mp hd).resolve_left (Ne.symm hne))⟩
    · intro s t _ ht h d hd hdt
      have hne : a ≠ d := by
        rintro rfl
        simp [hdt] at ht
      obtain ⟨c, hc, hcs, hR⟩ := h d ((List.mem_cons.mp hd).resolve_left (Ne.symm hne)) hdt
      exact ⟨c, List.mem_cons_of_mem _ hc, hcs, hR⟩

/-- The items of all keys are all items. -/
theorem length_flatMap_filter {β : Type} (f : β → κ) {l : List β} {ks : List κ} (hks : ks.Nodup)
    (h : ∀ a ∈ l, f a ∈ ks) : (ks.flatMap fun k => l.filter fun a => f a == k).length = l.length := by
  induction l with
  | nil => simp
  | cons a l ih =>
    obtain ⟨ha, hl⟩ := List.forall_mem_cons.mp h
    have hone : (ks.map fun k => if (f a == k) = true then 1 else 0).sum = 1 := by
      rw [List.sum_map_eq_nsmul_single (f a) _ fun k hk _ => if_neg (by simpa using Ne.symm hk),
        List.count_eq_one_of_mem hks ha]
      simp
    have hcons : ∀ k, ((a :: l).filter fun a => f a == k).length
        = (if (f a == k) = true then 1 else 0) + (l.filter fun a => f a == k).length := by
      intro k
      by_cases hk : (f a == k) = true <;> simp [hk, add_comm]
    rw [List.length_flatMap] at ih ⊢
    simp only [hcons, List.sum_map_add, hone, ih hl, List.length_cons, add_comm]

/-- An item that excludes all others is counted once. -/
theorem countP_eq_one {β : Type} {p : β → Bool} {l : List β}
    (h : l.Pairwise fun a b => ¬ (p a = true ∧ p b = true)) {a : β} (ha : a ∈ l) (hp : p a = true) :
    l.countP p = 1 := by
  induction h with
  | nil => cases ha
  | @cons b l hb _ ih =>
    rcases List.mem_cons.mp ha with rfl | ha
    · have hrest : l.countP p = 0 := List.countP_eq_zero.mpr fun c hc hpc => hb c hc ⟨hp, hpc⟩
      rw [List.countP_cons_of_pos hp, hrest]
    · have hnb : ¬ p b = true := fun hpb => hb a ha ⟨hpb, hp⟩
      rw [List.countP_cons_of_neg hnb, ih ha]

end Views

/-! ## Two dictionaries -/

/-- A registry kept in two dictionaries: the owner of each index, and the indices of each owner, each
in the order of insertion. -/
structure Tables (ι κ : Type) where
  owner : List (ι × κ)
  indices : List (κ × List ι)

namespace Tables

/-- Append an index to the list of an owner, or to a new empty list if it has none. -/
def enter (s : κ) (i : ι) : List (κ × List ι) → List (κ × List ι)
  | [] => [(s, [i])]
  | (t, is) :: rest => if t == s then (t, is ++ [i]) :: rest else (t, is) :: enter s i rest

/-- Both dictionaries are changed, or none of them. -/
def register (d : Tables ι κ) (i : ι) (s : κ) : Except κ (Tables ι κ) :=
  match (d.owner.find? fun e => e.1 == i).map Prod.snd with
  | some present => if present == s then .ok d else .error present
  | none => .ok ⟨d.owner ++ [(i, s)], enter s i d.indices⟩

def record (d : Tables ι κ) (call : ι × κ) : Tables ι κ :=
  match d.register call.1 call.2 with
  | .ok d => d
  | .error _ => d

def after (calls : List (ι × κ)) : Tables ι κ := calls.foldl record ⟨[], []⟩

omit [BEq ι] in
/-- The list of an owner gets the index at its end. An owner without a list is the last one then. -/
theorem enter_map {s : κ} (i : ι) {f : κ → List ι} {l : List κ} (hl : l.Nodup)
    (hs : s ∉ l → f s = []) : enter s i (l.map fun t => (t, f t))
      = (if s ∈ l then l else l ++ [s]).map fun t => (t, if t == s then f t ++ [i] else f t) := by
  induction l with
  | nil => simp [enter, hs]
  | cons t l ih =>
    obtain ⟨ht, hl⟩ := List.nodup_cons.mp hl
    rw [List.map_cons, enter]
    by_cases hts : t = s
    · subst hts
      have hrest : ∀ u ∈ l, u ≠ t := fun u hu h => ht (h ▸ hu)
      simpa using hrest
    · have hst : s ∈ t :: l ↔ s ∈ l := by simp [Ne.symm hts]
      have hbeq : (t == s) = false := by simpa using hts
      rw [hbeq, if_neg Bool.false_ne_true, ih hl fun h => hs (mt hst.mp h)]
      simp only [hst]
      split_ifs <;> simp [hts]

end Tables

/-- The dictionaries of a registry. -/
def tables (r : Registry ι κ) : Tables ι κ := ⟨r.entries, r.owners.map fun s => (s, r.indices s)⟩

section Correspondence

variable (r : Registry ι κ)

omit [BEq ι] in
theorem firsts_concat (l : List κ) (s : κ) :
    firsts (l ++ [s]) = if s ∈ firsts l then firsts l else firsts l ++ [s] := by
  induction l with
  | nil => simp [firsts]
  | cons t l ih =>
    rw [List.cons_append, firsts, firsts, ih]
    by_cases hts : t = s
    · subst hts
      split_ifs <;> simp_all
    · have hmem : s ∈ t :: (firsts l).filter (fun y => !(t == y)) ↔ s ∈ firsts l := by
        simp [hts, Ne.symm hts]
      simp only [hmem]
      split_ifs <;> simp [List.filter_append, hts]

/-- A call does the same to the dictionaries of a registry as to the registry. -/
theorem register_tables (i : ι) (s : κ) :
    r.tables.register i s = (r.register i s).map Registry.tables := by
  unfold Tables.register register
  change (match r.owner? i with | some present => _ | none => _) = _
  cases r.owner? i with
  | some present => by_cases h : (present == s) = true <;> simp [h, Except.map]
  | none =>
    have howners : (⟨r.entries ++ [(i, s)]⟩ : Registry ι κ).owners
        = if s ∈ r.owners then r.owners else r.owners ++ [s] := by
      rw [owners, List.map_append, List.map_singleton, firsts_concat]
      rfl
    have hindices : ∀ t, (⟨r.entries ++ [(i, s)]⟩ : Registry ι κ).indices t
        = if t == s then r.indices t ++ [i] else r.indices t := by
      intro t
      by_cases h : t = s
      · simp [indices, h]
      · simp [indices, h, Ne.symm h]
    have hnone : s ∉ r.owners → r.indices s = [] := fun hs =>
      List.eq_nil_iff_forall_not_mem.mpr fun j hj => hs (mem_owners.mpr ⟨j, mem_indices.mp hj⟩)
    simp only [Except.map, tables, howners, hindices]
    rw [Tables.enter_map i (show r.owners.Nodup from nodup_firsts _) hnone]

theorem tables_after (calls : List (ι × κ)) : Tables.after calls = (after calls).tables := by
  induction calls using List.reverseRecOn with
  | nil => rfl
  | append_singleton calls c ih =>
    rw [after_concat, Tables.after, List.foldl_append, ← Tables.after, ih, List.foldl_cons,
      List.foldl_nil, Tables.record, register_tables, record]
    cases (after calls).register c.1 c.2 <;> rfl

end Correspondence

/-! ## Consistency -/

/-- The views of a registry are inverse to each other and in the order of the calls. -/
structure Consistent (calls : List (ι × κ)) (r : Registry ι κ) : Prop where
  /-- A set owns the indices in its list. -/
  owner_iff : ∀ i s, r.owner? i = some s ↔ ∃ j ∈ r.indices s, (j == i) = true
  /-- An index that has an owner is once in the list of its owner. -/
  once : ∀ i s, r.owner? i = some s → (r.indices s).countP (· == i) = 1
  /-- It is in no other list. -/
  elsewhere : ∀ i s t, r.owner? i = some s → t ≠ s → (r.indices t).countP (· == i) = 0
  /-- Lists are in the order of the first calls for the indices. -/
  ordered : ∀ s, (r.indices s).Pairwise fun i j => rank calls i < rank calls j
  owners_nodup : r.owners.Nodup
  mem_owners_iff : ∀ s, s ∈ r.owners ↔ ∃ i, r.owner? i = some s
  /-- Owners are in the order of their first indices. -/
  owners_ordered : r.owners.Pairwise fun s t =>
    ∀ j ∈ r.indices t, ∃ i ∈ r.indices s, rank calls i < rank calls j
  size_eq : r.size = (r.owners.flatMap r.indices).length
  contains_iff : ∀ i, r.contains i = true ↔ ∃ s, r.owner? i = some s

section Consistency

variable [EquivBEq ι] {calls : List (ι × κ)} {i : ι} {s : κ}

/-- The entry of an index that has an owner. -/
theorem owner?_after_eq_some : (after calls).owner? i = some s
    ↔ ∃ j, (j, s) ∈ (after calls).entries ∧ (j == i) = true := by
  constructor
  · intro h
    obtain ⟨⟨j, t⟩, hfind, rfl⟩ := Option.map_eq_some_iff.mp h
    have hji := List.find?_some hfind
    exact ⟨j, List.mem_of_find?_eq_some hfind, hji⟩
  · rintro ⟨j, hj, hji⟩
    rw [← (after calls).owner?_congr hji, owner?_after, ((entries_after calls).1 _ hj).2]
    rfl

theorem owner?_after_iff : (after calls).owner? i = some s
    ↔ ∃ j ∈ (after calls).indices s, (j == i) = true := by
  simp only [owner?_after_eq_some, mem_indices]

/-- Equal indices have one entry. -/
theorem countP_indices_after (h : (after calls).owner? i = some s) :
    ((after calls).indices s).countP (· == i) = 1 := by
  obtain ⟨j, hj, hji⟩ := owner?_after_iff.mp h
  refine countP_eq_one ?_ hj hji
  rw [indices, List.pairwise_map]
  refine ((entries_after calls).2.filter _).imp ?_
  rintro c d hlt ⟨hc, hd⟩
  refine Nat.ne_of_lt hlt ?_
  simp only [rank, BEq.congr_right (BEq.trans hc (BEq.symm hd))]

theorem consistent_views (calls : List (ι × κ)) : Consistent calls (after calls) where
  owner_iff i s := owner?_after_iff
  once i s h := countP_indices_after h
  elsewhere i s t h ht := List.countP_eq_zero.mpr fun j hj hji => by
    have hother := owner?_after_iff.mpr ⟨j, hj, hji⟩
    rw [h] at hother
    exact ht (Option.some.inj hother).symm
  ordered s := by
    rw [indices, List.pairwise_map]
    exact (entries_after calls).2.filter _
  owners_nodup := nodup_firsts _
  mem_owners_iff s := by
    rw [mem_owners]
    constructor
    · rintro ⟨i, hi⟩
      exact ⟨i, owner?_after_eq_some.mpr ⟨i, hi, BEq.rfl⟩⟩
    · rintro ⟨i, hi⟩
      obtain ⟨j, hj, -⟩ := owner?_after_eq_some.mp hi
      exact ⟨j, hj⟩
  owners_ordered := (pairwise_firsts Prod.snd (entries_after calls).2).imp fun h j hj => by
    obtain ⟨c, hc, rfl, hlt⟩ := h _ (mem_indices.mp hj) rfl
    exact ⟨c.1, mem_indices.mpr hc, hlt⟩
  size_eq := by
    have hpart := length_flatMap_filter Prod.snd (l := (after calls).entries)
      (nodup_firsts ((after calls).entries.map Prod.snd)) fun c hc =>
        mem_firsts.mpr (List.mem_map_of_mem hc)
    rw [size, ← hpart]
    simp [owners, indices, List.length_flatMap]
  contains_iff i := Option.isSome_iff_exists

end Consistency

omit [DecidableEq κ] in
theorem missing_eq_nil_iff {r : Registry ι κ} {index : ℕ → ι} {n : ℕ} :
    r.missing index n = [] ↔ ¬ ∃ i < n, r.owner? (index i) = none := by
  simp [missing, contains, List.filter_eq_nil_iff]

omit [DecidableEq κ] in
/-- A registry is refused if a position has no owner. -/
theorem checkComplete_eq_error_iff {α : Type} {r : Registry ι κ} {index : ℕ → ι} {n : ℕ}
    {c : Fault α} : r.checkComplete index n = .error c
      ↔ (∃ i < n, r.owner? (index i) = none) ∧ c = .unregistered (r.missing index n) := by
  have hnil : r.missing index n = [] ↔ _ := missing_eq_nil_iff
  unfold checkComplete
  cases hm : r.missing index n with
  | nil => simp [hnil.mp hm]
  | cons i is =>
    rw [hm] at hnil
    rw [and_iff_right (not_not.mp (mt hnil.mpr (by simp)))]
    exact ⟨fun h => (Except.error.inj h).symm, fun h => h ▸ rfl⟩

/-- The registration phase ends with this check. -/
theorem registerAll_eq {α σ δ τ : Type} (p : Participants α σ κ δ τ) : p.registerAll = do
    let r ← (List.range p.count).foldlM p.registerAt .empty
    (r.checkComplete id p.count : Except (Fault α) Unit)
    return r := by
  unfold Participants.registerAll
  congr 1
  funext r
  unfold checkComplete
  cases h : (r.missing id p.count).isEmpty <;> simp [h] <;> rfl

/-- After any calls the views of a registry are inverse to each other and in the order of the first
calls, and they are what the two dictionaries hold. A further call that conflicts with the owner of
an index is refused with it and changes nothing, one that agrees changes nothing either, and the
owner of an index stays the same whatever is called. The registry is complete unless a position has
no owner. -/
theorem consistent_after [EquivBEq ι] (calls : List (ι × κ)) :
    Consistent calls (after calls)
    ∧ Tables.after calls = (after calls).tables
    ∧ (∀ i s t, (after calls).owner? i = some s → s ≠ t →
      (after calls).register i t = .error s ∧ after (calls ++ [(i, t)]) = after calls)
    ∧ (∀ i s, (after calls).owner? i = some s → (after calls).register i s = .ok (after calls))
    ∧ (∀ i s more, (after calls).owner? i = some s → (after (calls ++ more)).owner? i = some s)
    ∧ ∀ (α : Type) (index : ℕ → ι) (n : ℕ),
      ((∃ c : Fault α, (after calls).checkComplete index n = .error c)
        ↔ ∃ i < n, (after calls).owner? (index i) = none)
      ∧ ∀ c : Fault α, (after calls).checkComplete index n = .error c →
        c.category = .registration := by
  refine ⟨consistent_views calls, tables_after calls, fun i s t h hne => ⟨?_, ?_⟩, fun i s h => ?_,
    fun i s more h => ?_, fun α index n => ⟨?_, fun c hc => ?_⟩⟩
  · rw [register, h]
    exact if_neg (by simpa using hne)
  · rw [after_concat, record_eq, h]
    rfl
  · rw [register, h]
    exact if_pos (beq_self_eq_true s)
  · rw [owner?_after] at h ⊢
    obtain ⟨c, hc, rfl⟩ := Option.map_eq_some_iff.mp h
    rw [List.find?_append, hc]
    rfl
  · simp only [checkComplete_eq_error_iff]
    constructor
    · rintro ⟨_, h, -⟩
      exact h
    · exact fun h => ⟨_, h, rfl⟩
  · rw [(checkComplete_eq_error_iff.mp hc).2]
    rfl

end Registry

/-! ## Literals as indices -/

namespace Literal

variable (α : Type) [Scalar α]

/-- A literal that can serve as a key and equals itself. -/
def Key : Type := {v : Literal α // v.isKey = true ∧ (v == v) = true}

instance : BEq (Key α) := ⟨fun k l => k.1 == l.1⟩

variable {α}

/-- What a key stands for: nothing, a text or a number. -/
def meaning (v : Literal α) : Option (String ⊕ Extended) :=
  match v with
  | text s => some (.inl s)
  | v => v.numeric?.map .inr

theorem eq_iff_of_eq_self {x y : Extended} (hx : x.eq x = true) : x.eq y = true ↔ x = y := by
  cases x <;> cases y <;> simp_all [Extended.eq]

/-- Keys are equal if they stand for the same, be they of different types. -/
theorem beq_key_iff {k l : Key α} : (k == l) = true ↔ k.1.meaning = l.1.meaning := by
  obtain ⟨v, hv, hself⟩ := k
  obtain ⟨w, hw, -⟩ := l
  change v.same v = true at hself
  show v.same w = true ↔ v.meaning = w.meaning
  cases v <;> cases w <;> simp_all [isKey, same, meaning, numeric?, eq_iff_of_eq_self]

instance : EquivBEq (Key α) where
  rfl {k} := k.2.2
  symm h := beq_key_iff.mpr (beq_key_iff.mp h).symm
  trans h h' := beq_key_iff.mpr ((beq_key_iff.mp h).trans (beq_key_iff.mp h'))

end Literal

namespace Docket

open Registry

abbrev Key := Literal.Key Extended

def one : Key := ⟨.integer 1, by decide +kernel⟩

def yes : Key := ⟨.truth true, by decide +kernel⟩

def unit : Key := ⟨.real (.finite 1), by decide +kernel⟩

def label : Key := ⟨.text "a", by decide +kernel⟩

/-- A repetition under another key, and a conflict under a third one. -/
def calls : List (Key × ℕ) := [(one, 0), (yes, 0), (label, 1), (unit, 1)]

/-- The number, the fraction and the truth value are one index, which its first set keeps. -/
theorem calls_consistent_after : Consistent calls (after calls)
    ∧ (after calls).owner? yes = some 0 ∧ (after calls).indices 0 = [one]
    ∧ (after calls).register unit 1 = .error 0 ∧ (after calls).register yes 0 = .ok (after calls)
    ∧ (after (calls ++ [(unit, 1), (label, 0)])).owner? label = some 1 := by
  obtain ⟨hviews, -, hconflict, hrepeat, hlasting, -⟩ := consistent_after calls
  have hyes : (after calls).owner? yes = some 0 := by decide +kernel
  have hunit : (after calls).owner? unit = some 0 := by decide +kernel
  have hlabel : (after calls).owner? label = some 1 := by decide +kernel
  exact ⟨hviews, hyes, rfl, (hconflict unit 0 1 hunit (by decide)).1, hrepeat yes 0 hyes,
    hlasting label 1 _ hlabel⟩

end Docket

end RobustOpt
