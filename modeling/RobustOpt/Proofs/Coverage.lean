import Mathlib.Algebra.BigOperators.Group.List.Basic
import Mathlib.Data.List.Nodup
import RobustOpt.Proofs.Course
import RobustOpt.Proofs.Report

/-!
# Covered and remaining constraints

A set reports what it reformulated as nothing, as a count or as a collection of indices. Acceptable
reports divide the constraints of the set into covered and remaining ones, other reports are
refused. Since every constraint has one owner, the constraints of the model are divided too, and the
scenarios collected later belong to the remaining ones.

## Main definitions

* `Report.Coverage`: the kinds of reports.
* `Participants.Accounts`: a division of the constraints of every set.

## Main statements

* `Report.Coverage.partition_literal`: the division by one report, or its refusal.
* `Participants.reformulation_accounts`: the division by all reports of a resolution.
-/

namespace RobustOpt

namespace Report

/-- What a set can report: nothing, a number of constraints, or indices, in any order and some
perhaps repeatedly. -/
inductive Coverage where
  | nothing
  | count (n : ℤ)
  | indices (js : List ℤ)
deriving DecidableEq, Repr, Inhabited

namespace Coverage

variable {α : Type}

/-- The report as a literal. -/
def literal : Coverage → Literal α
  | nothing => .absent
  | count n => .integer n
  | indices js => .list (js.map .integer)

/-- A count is zero or the number offered, and indices are among those offered. -/
def Acceptable (offered : List ℕ) : Coverage → Prop
  | nothing => True
  | count n => n = 0 ∨ n = offered.length
  | indices js => ∀ j ∈ js, ∃ i ∈ offered, j = (i : ℤ)

/-- The offered constraints that a report covers. -/
def done (offered : List ℕ) : Coverage → List ℕ
  | nothing => []
  | count n => if n = 0 then [] else offered
  | indices js => offered.filter fun i => js.contains (i : ℤ)

/-- The offered constraints that a report leaves. -/
def left (c : Coverage) (offered : List ℕ) : List ℕ :=
  offered.filter fun i => !(c.done offered).contains i

theorem literal_injective : Function.Injective (literal : Coverage → Literal α) := by
  rintro (_ | m | is) (_ | n | js) h <;> simp only [literal, reduceCtorEq, Literal.integer.injEq,
    Literal.list.injEq] at h
  · rfl
  · rw [h]
  · rw [List.map_injective_iff.mpr (fun a b hab => Literal.integer.inj hab) h]

theorem done_sublist (c : Coverage) (offered : List ℕ) : (c.done offered).Sublist offered := by
  cases c with
  | nothing => exact List.nil_sublist _
  | count n =>
    show (if n = 0 then [] else offered).Sublist offered
    split_ifs
    exacts [List.nil_sublist _, .refl _]
  | indices js => exact List.filter_sublist

theorem left_sublist (c : Coverage) (offered : List ℕ) : (c.left offered).Sublist offered :=
  List.filter_sublist

/-- Every offered constraint is covered or left, and none is both. -/
theorem done_append_left (c : Coverage) {offered : List ℕ} (h : offered.Nodup) :
    (c.done offered ++ c.left offered).Perm offered := by
  have hdone : (c.done offered).Nodup := h.sublist (c.done_sublist offered)
  refine (List.perm_ext_iff_of_nodup (List.nodup_append.mpr
    ⟨hdone, h.sublist (c.left_sublist offered), ?_⟩) h).mpr fun i => ?_
  · rintro i hi _ hleft rfl
    simp [left, hi] at hleft
  · rw [List.mem_append, left, List.mem_filter]
    have := (c.done_sublist offered).subset (a := i)
    by_cases hi : i ∈ c.done offered <;> simp [hi, this]

variable [Scalar α]

theorem insertKey_integer (j : ℤ) (ks : List ℤ) : ∃ js : List ℤ,
    insertKey (.integer j : Literal α) (ks.map .integer) = .ok (js.map .integer) := by
  induction ks with
  | nil => exact ⟨[j], rfl⟩
  | cons k ks ih =>
    have hless : (Literal.integer j : Literal α).less (.integer k)
        = .ok ((Extended.finite j).lt (.finite k)) := rfl
    obtain ⟨js, hjs⟩ := ih
    rw [List.map_cons, insertKey, hless]
    cases (Extended.finite (j : ℚ)).lt (.finite k) with
    | true => exact ⟨j :: k :: ks, rfl⟩
    | false => exact ⟨k :: js, by simp [hjs, bind, Except.bind, pure, Except.pure]⟩

/-- Whole numbers compare, so that they can be put in order. -/
theorem exists_sorted (js : List ℤ) : ∃ ks : List (Literal α),
    sorted (js.map Literal.integer) = .ok ks := by
  suffices hgen : ∀ js acc : List ℤ, ∃ ks : List (Literal α), (js.map Literal.integer).foldlM
      (fun acc k => insertKey k acc) (acc.map Literal.integer) = .ok ks from hgen js []
  intro js
  induction js with
  | nil => exact fun acc => ⟨_, rfl⟩
  | cons j js ih =>
    intro acc
    obtain ⟨acc', hacc⟩ := insertKey_integer (α := α) j acc
    obtain ⟨ks, hks⟩ := ih acc'
    exact ⟨ks, by rw [List.map_cons, List.foldlM_cons, hacc]; exact hks⟩

omit [Scalar α] in
/-- An index that occurs among offered ones, as often as it may, is covered once. -/
theorem length_firsts {js : List ℤ} {offered : List ℕ} (h : offered.Nodup)
    (hjs : ∀ j ∈ js, ∃ i ∈ offered, j = (i : ℤ)) :
    (Registry.firsts js).length = (offered.filter fun i : ℕ => js.contains (i : ℤ)).length := by
  have hperm : (Registry.firsts js).Perm
      ((offered.filter fun i : ℕ => js.contains (i : ℤ)).map Int.ofNat) := by
    refine (List.perm_ext_iff_of_nodup (Registry.nodup_firsts js)
      (List.Nodup.map Int.ofNat_injective (h.filter _))).mpr fun j => ?_
    simp only [Registry.mem_firsts, List.mem_map, List.mem_filter, List.contains_iff_mem]
    constructor
    · intro hj
      obtain ⟨i, hi, rfl⟩ := hjs j hj
      exact ⟨i, ⟨hi, hj⟩, rfl⟩
    · rintro ⟨i, ⟨-, hi⟩, rfl⟩
      exact hi
  simpa using hperm.length_eq

/-- A report of an index that was not offered is refused. -/
theorem partition_indices_error (name : String) {js : List ℤ} {offered : List ℕ}
    (h : ¬ ∀ j ∈ js, ∃ i ∈ offered, j = (i : ℤ)) :
    ∃ e : Fault α, partition name (.list (js.map .integer)) offered = .error e
      ∧ e.category = .value := by
  have hcovered : covered name (.list (js.map .integer) : Literal α) (offered.map Int.ofNat)
      = .ok ((Registry.firsts js).map Literal.integer) := by
    rw [covered, distinct, if_pos (by simp [Literal.isKey]), Registry.firsts_map integer_beq]
  have hunknown : ((Registry.firsts js).filter fun k => !offered.any fun o => k == Int.ofNat o)
      ≠ [] := by
    simpa [List.filter_eq_nil_iff, Registry.mem_firsts] using h
  obtain ⟨ks, hks⟩ := exists_sorted (α := α)
    ((Registry.firsts js).filter fun k => !offered.any fun o => k == Int.ofNat o)
  refine ⟨.notOffered name ks, ?_, rfl⟩
  rw [partition, hcovered]
  simp only [bind, Except.bind, List.any_map, List.filter_map, Function.comp_def, integer_beq,
    List.isEmpty_map, hks]
  rw [if_pos (by simpa [List.isEmpty_iff] using hunknown)]
  rfl

theorem partition_literal (name : String) (c : Coverage) {offered : List ℕ} (h : offered.Nodup) :
    (c.Acceptable offered ∧ partition name (c.literal : Literal α) offered
        = .ok ((c.done offered).length, c.left offered))
      ∨ ¬ c.Acceptable offered ∧ ∃ e, partition name (c.literal : Literal α) offered = .error e
        ∧ e.category = .value := by
  cases c with
  | nothing => exact .inl ⟨trivial, by simp [literal, partition_absent, done, left]⟩
  | count n =>
    by_cases hzero : n = 0
    · subst hzero
      refine .inl ⟨.inl rfl, ?_⟩
      have hcovered : covered name (.integer 0 : Literal α) (offered.map Int.ofNat)
          = covered name .absent (offered.map Int.ofNat) := rfl
      rw [literal, partition, hcovered, ← partition, partition_absent]
      simp [done, left]
    by_cases hall : n = offered.length
    · -- the count stands for all indices
      have hcovered : covered name (.integer n : Literal α) (offered.map Int.ofNat)
          = covered name (UncertaintySet.reportOf (offered.map Int.ofNat))
            (offered.map Int.ofNat) := by
        rw [covered, if_neg hzero, if_pos (by simpa using hall), UncertaintySet.reportOf, covered,
          distinct, if_pos (by simp [Literal.isKey])]
      have hoffered : ∀ j ∈ offered.map Int.ofNat, ∃ i ∈ offered, j = (i : ℤ) := by simp
      refine .inl ⟨.inr hall, ?_⟩
      rw [literal, partition, hcovered, ← partition]
      refine partition_reportOf.mpr ⟨hoffered, ?_⟩
      rw [length_firsts h hoffered]
      have hcontains : (offered.filter fun i : ℕ => (offered.map Int.ofNat).contains (i : ℤ))
          = offered := List.filter_eq_self.mpr fun i hi => by simpa using hi
      rw [hcontains]
      simp [done, left, hzero]
    · refine .inr
        ⟨by rintro (h | h) <;> contradiction, .ambiguousCount name n offered.length, ?_, rfl⟩
      simp [literal, partition, covered, hzero, hall, bind, Except.bind]
  | indices js =>
    by_cases hjs : ∀ j ∈ js, ∃ i ∈ offered, j = (i : ℤ)
    · refine .inl ⟨hjs, partition_reportOf.mpr ⟨hjs, ?_⟩⟩
      rw [length_firsts h hjs, left]
      refine congrArg (Prod.mk _) (List.filter_congr fun i hi => ?_)
      simp [done, hi]
    · exact .inr ⟨hjs, partition_indices_error name hjs⟩

end Coverage

end Report

namespace Participants

open RobustOpt.Action

variable {α σ κ δ τ : Type}

/-! ## Divisions -/

section Divisions

variable [DecidableEq κ] (p : Participants α σ κ δ τ)

/-- A reformulation and what the set reported. -/
def reformed (k : κ) (c : Report.Coverage) : Event α κ δ τ :=
  ⟨.reform k (p.owned k), some (.report c.literal)⟩

/-- The sets' reports divide the constraints: those of each set into covered and remaining ones, in
increasing order, so that all constraints of the model are accounted for. -/
structure Accounts (c : κ → Report.Coverage) (covered : ℕ) (remaining : List (κ × List ℕ)) :
    Prop where
  acceptable : ∀ k ∈ p.owners, (c k).Acceptable (p.owned k)
  remaining_eq : remaining = p.owners.map fun k => (k, (c k).left (p.owned k))
  covered_eq : covered = (p.owners.map fun k => ((c k).done (p.owned k)).length).sum
  partition : ∀ k ∈ p.owners,
    ((c k).done (p.owned k) ++ (c k).left (p.owned k)).Perm (p.owned k)
  increasing : ∀ k ∈ p.owners, ((c k).left (p.owned k)).Pairwise (· < ·)
  total : covered + (remaining.map fun q => q.2.length).sum = p.count

theorem nodup_owned (k : κ) : (p.owned k).Nodup := List.nodup_range.filter _

theorem pairwise_owned (k : κ) : (p.owned k).Pairwise (· < ·) := List.pairwise_lt_range.filter _

/-- Parts of what the sets own have no constraint in common. -/
theorem nodup_flatMap {rest : κ → List ℕ} (h : ∀ k, (rest k).Sublist (p.owned k)) :
    (p.owners.flatMap rest).Nodup := by
  refine List.nodup_flatMap.mpr ⟨fun k _ => (p.nodup_owned k).sublist (h k), ?_⟩
  refine p.nodup_owners.imp fun hne i hi hj => hne ?_
  have hi := (List.mem_filter.mp ((h _).subset hi)).2
  have hj := (List.mem_filter.mp ((h _).subset hj)).2
  exact (eq_of_beq hi).symm.trans (eq_of_beq hj)

/-- Every constraint is owned by one set. -/
theorem sum_length_owned : (p.owners.map fun k => (p.owned k).length).sum = p.count := by
  have hperm : (p.owners.flatMap p.owned).Perm (List.range p.count) := by
    refine (List.perm_ext_iff_of_nodup (p.nodup_flatMap fun _ => .refl _) List.nodup_range).mpr
      fun i => ?_
    simp only [List.mem_flatMap, owned, List.mem_filter, beq_iff_eq, mem_owners, List.mem_range]
    constructor
    · rintro ⟨_, _, hi, _⟩
      exact hi
    · intro hi
      exact ⟨p.owner i, ⟨i, hi, rfl⟩, hi, rfl⟩
  simpa [List.length_flatMap] using hperm.length_eq

/-- Acceptable reports divide the constraints. -/
theorem accounts_of_acceptable {c : κ → Report.Coverage}
    (h : ∀ k ∈ p.owners, (c k).Acceptable (p.owned k)) :
    p.Accounts c (p.owners.map fun k => ((c k).done (p.owned k)).length).sum
      (p.owners.map fun k => (k, (c k).left (p.owned k))) where
  acceptable := h
  remaining_eq := rfl
  covered_eq := rfl
  partition k _ := (c k).done_append_left (p.nodup_owned k)
  increasing k _ := (p.pairwise_owned k).sublist ((c k).left_sublist _)
  total := by
    rw [List.map_map, ← p.sum_length_owned, ← List.sum_map_add]
    refine congrArg List.sum (List.map_congr_left fun k _ => ?_)
    rw [← ((c k).done_append_left (p.nodup_owned k)).length_eq, List.length_append]
    rfl

variable [Scalar α]

/-- The division by a report of a set that reformulates. -/
theorem divides_literal {k : κ} {c : Report.Coverage} {covered : ℕ} {rest : List ℕ}
    (hk : p.supports k .reform = true) (h : p.Divides k c.literal covered rest) :
    c.Acceptable (p.owned k) ∧ covered = (c.done (p.owned k)).length
      ∧ rest = c.left (p.owned k) := by
  rw [Divides, if_pos hk] at h
  rcases c.partition_literal (α := α) (p.kindName k) (p.nodup_owned k) with
    ⟨hc, hok⟩ | ⟨-, e, herror, -⟩
  · obtain ⟨rfl, rfl⟩ := Prod.mk.inj (Except.ok.inj (hok.symm.trans h))
    exact ⟨hc, rfl, rfl⟩
  · exact absurd (herror.symm.trans h) (by simp)

/-- The division by the reports of all sets. A set that does not reformulate counts as one that
reports nothing. -/
theorem accounts_of_divides {reports : κ → Literal α} {covered : κ → ℕ} {rest : κ → List ℕ}
    (hdivides : ∀ k ∈ p.owners, p.Divides k (reports k) (covered k) (rest k))
    (hreports : ∀ k ∈ p.owners, p.supports k .reform = true →
      ∃ c : Report.Coverage, reports k = c.literal) :
    ∃ c : κ → Report.Coverage,
      (∀ k ∈ p.owners, p.supports k .reform = true → reports k = (c k).literal)
        ∧ (∀ k ∈ p.owners, p.supports k .reform = false → c k = .nothing)
        ∧ (∀ k ∈ p.owners, rest k = (c k).left (p.owned k))
        ∧ p.Accounts c (p.owners.map covered).sum (p.owners.map fun k => (k, rest k)) := by
  have hset : ∀ k ∈ p.owners, ∃ c : Report.Coverage,
      (p.supports k .reform = true → reports k = c.literal)
        ∧ (p.supports k .reform = false → c = .nothing) ∧ c.Acceptable (p.owned k)
        ∧ covered k = (c.done (p.owned k)).length ∧ rest k = c.left (p.owned k) := by
    intro k hk
    have hdivides := hdivides k hk
    cases hreform : p.supports k .reform with
    | true =>
      obtain ⟨c, hc⟩ := hreports k hk hreform
      rw [hc] at hdivides
      exact ⟨c, fun _ => hc, by simp, p.divides_literal hreform hdivides⟩
    | false =>
      obtain ⟨hcovered, hrest⟩ : covered k = 0 ∧ rest k = p.owned k := by
        simpa [Divides, hreform] using hdivides
      exact ⟨.nothing, by simp, fun _ => rfl, trivial, hcovered, by
        simp [hrest, Report.Coverage.left, Report.Coverage.done]⟩
  choose! c hc using hset
  refine ⟨c, fun k hk => (hc k hk).1, fun k hk => (hc k hk).2.1, fun k hk => (hc k hk).2.2.2.2, ?_⟩
  have haccounts := p.accounts_of_acceptable (c := c) fun k hk => (hc k hk).2.2.1
  rwa [List.map_congr_left fun k hk => (hc k hk).2.2.2.1,
    List.map_congr_left fun k hk => congrArg (Prod.mk k) (hc k hk).2.2.2.2]

end Divisions

/-! ## Noted reports -/

/-- Whatever is reported is nothing, a count or a collection of indices. -/
def Covering (e : Event α κ δ τ) : Prop :=
  ∀ r, e.answer = some (.report r) → ∃ c : Report.Coverage, r = c.literal

theorem covering_of_map {β : Type} {call : Call κ δ} {answer : β → Answer α δ τ}
    (h : ∀ b r, answer b ≠ .report r) (result : Option β) :
    Covering (⟨call, result.map answer⟩ : Event α κ δ τ) := by
  intro r hr
  obtain ⟨b, -, hb⟩ := Option.map_eq_some_iff.mp hr
  exact absurd hb (h b r)

section Reports

variable [DecidableEq κ] [Scalar α] {p : Participants α σ κ δ τ}

/-- Every set that returns from a reformulation reports nothing, a count, or indices. -/
def Reports (p : Participants α σ κ δ τ) : Prop :=
  ∀ k is s r t, (p.reform k is).Yields s r t → ∃ c : Report.Coverage, r = c.literal

omit [DecidableEq κ] [Scalar α] in
theorem keeps_reform_covering (hp : p.Reports) (k : κ) (is : List ℕ) :
    (p.traced.reform k is).Keeps fun u => ∀ e ∈ u.2, Covering e := by
  refine keeps_noting fun s r hr => ?_
  rcases hrun : (p.reform k is).perform s with ⟨_ | r', t⟩
  · simp [hrun, Except.toOption] at hr
  · obtain rfl : r' = r := by simpa [hrun, Except.toOption] using hr
    exact hp k is s r' t hrun

theorem keeps_resolve_covering (hp : p.Reports) (limit : ℕ) (report : Bool) :
    (p.traced.resolve limit report).Keeps fun g => ∀ e ∈ g.world.2, Covering e := by
  refine keeps_resolve (p := p.traced) (P := fun u => ∀ e ∈ u.2, Covering e) (fun k i => ?_)
    (fun k => ?_) ?_ (keeps_reform_covering hp) ?_ (fun k is => ?_) (fun cs => ?_) (fun k is => ?_)
    limit report
  all_goals exact keeps_noting fun s => covering_of_map (by simp) _

/-! ## Refused reports -/

/-- An acceptable report was noted. -/
def Accepted (p : Participants α σ κ δ τ) (e : Event α κ δ τ) : Prop :=
  ∃ k c, e = p.reformed k c ∧ c.Acceptable (p.owned k)

/-- The call behind an event fails by itself, or its report is refused. -/
def Refused (p : Participants α σ κ δ τ) (fault : Fault α) (e : Event α κ δ τ) : Prop :=
  e.answer = none ∨ fault.category = .value
    ∧ ∃ k c, e = p.reformed k c ∧ ¬ c.Acceptable (p.owned k)

/-- The noted reports are acceptable, unless the action failed: then the last call is to blame. -/
def Verdict {β : Type} (p : Participants α σ κ δ τ) (es : List (Event α κ δ τ)) :
    Except (Fault α) β → Prop
  | .ok _ => ∀ e ∈ es, p.Accepted e
  | .error fault => ∃ init last, es = init ++ [last] ∧ (∀ e ∈ init, p.Accepted e)
      ∧ p.Refused fault last

omit [Scalar α] in
theorem Verdict.append_left {β : Type} {pre es : List (Event α κ δ τ)} {r : Except (Fault α) β}
    (hpre : ∀ e ∈ pre, p.Accepted e) (h : p.Verdict es r) : p.Verdict (pre ++ es) r := by
  cases r with
  | ok b => exact List.forall_mem_append.mpr ⟨hpre, h⟩
  | error fault =>
    obtain ⟨init, last, rfl, hinit, hlast⟩ := h
    exact ⟨pre ++ init, last, (List.append_assoc ..).symm,
      List.forall_mem_append.mpr ⟨hpre, hinit⟩, hlast⟩

/-- What an action notes tells why it failed. -/
def Scrutinizes {β : Type} (p : Participants α σ κ δ τ)
    (a : Action (σ × List (Event α κ δ τ)) (Fault α) β) : Prop :=
  ∀ s log, ∃ es, (a.perform (s, log)).2.2 = log ++ es ∧ p.Verdict es (a.perform (s, log)).1

namespace Scrutinizes

variable {β γ ι : Type} {a : Action (σ × List (Event α κ δ τ)) (Fault α) β}

omit [Scalar α] in
protected theorem pure (b : β) : Scrutinizes p (pure b) := fun _ _ =>
  ⟨[], (List.append_nil _).symm, fun _ he => absurd he List.not_mem_nil⟩

omit [Scalar α] in
protected theorem bind {f : β → Action (σ × List (Event α κ δ τ)) (Fault α) γ}
    (ha : Scrutinizes p a) (hf : ∀ b, Scrutinizes p (f b)) : Scrutinizes p (a >>= f) := by
  intro s log
  obtain ⟨es, hlog, hes⟩ := ha s log
  rw [perform_bind]
  rcases hrun : a.perform (s, log) with ⟨fault | b, t, log'⟩
  · rw [hrun] at hlog hes
    exact ⟨es, hlog, hes⟩
  · rw [hrun] at hlog hes
    obtain rfl : log' = log ++ es := hlog
    obtain ⟨fs, hlog', hfs⟩ := hf b t (log ++ es)
    exact ⟨es ++ fs, by rw [← List.append_assoc]; exact hlog', hfs.append_left hes⟩

omit [Scalar α] in
protected theorem mapM {f : ι → Action (σ × List (Event α κ δ τ)) (Fault α) β} {l : List ι}
    (h : ∀ i ∈ l, Scrutinizes p (f i)) : Scrutinizes p (l.mapM f) := by
  induction l with
  | nil => exact .pure []
  | cons i l ih =>
    obtain ⟨hi, hl⟩ := List.forall_mem_cons.mp h
    rw [List.mapM_cons]
    exact hi.bind fun _ => (ih hl).bind fun _ => .pure _

end Scrutinizes

theorem scrutinizes_reformSet (hp : p.Reports) (k : κ) :
    Scrutinizes p (p.traced.reformSet p.registry k) := by
  unfold reformSet
  rw [indices_registry, traced_supports]
  cases hk : p.supports k .reform with
  | false => exact .pure _
  | true =>
    intro s log
    simp only [if_true]
    rw [perform_bind]
    simp only [traced, noting, perform_ofFun]
    rcases hrun : (p.reform k (p.owned k)).perform s with ⟨fault | r, t⟩
    · exact ⟨_, rfl, [], _, rfl, by simp, .inl rfl⟩
    · obtain ⟨c, rfl⟩ := hp k _ s r t hrun
      refine ⟨[p.reformed k c], rfl, ?_⟩
      show p.Verdict _ (Report.partition (p.kindName k) c.literal (p.owned k))
      rcases c.partition_literal (α := α) (p.kindName k) (p.nodup_owned k) with
        ⟨hc, hok⟩ | ⟨hc, e, herror, he⟩
      · rw [hok]
        exact List.forall_mem_singleton.mpr ⟨k, c, rfl, hc⟩
      · rw [herror]
        exact ⟨[], _, rfl, by simp, .inr ⟨he, k, c, rfl, hc⟩⟩

theorem scrutinizes_reformAll (hp : p.Reports) :
    Scrutinizes p (p.traced.reformAll p.registry) :=
  .bind (.mapM fun k _ => (scrutinizes_reformSet hp k).bind fun _ => .pure _) fun _ => .pure _

omit [Scalar α] in
/-- A noted report was found acceptable or not, not both. -/
theorem not_accepted {k : κ} {c : Report.Coverage} (hc : ¬ c.Acceptable (p.owned k)) :
    ¬ p.Accepted (p.reformed k c) := by
  rintro ⟨k', c', heq, hc'⟩
  obtain ⟨hcall, hanswer⟩ := Event.mk.inj heq
  obtain ⟨rfl, -⟩ := Call.reform.inj hcall
  obtain rfl := Report.Coverage.literal_injective (Answer.report.inj (Option.some.inj hanswer))
  exact hc hc'

end Reports

/-! ## The accounts of a resolution -/

section Resolution

variable [Scalar α] [DecidableEq κ] {p : Participants α σ κ δ τ}

/-- Successful reformulations divide the constraints. -/
theorem accounts_of_reformAll (hp : p.Reports) {s t : σ} {es : List (Event α κ δ τ)} {n : ℕ}
    {remaining : List (κ × List ℕ)}
    (h : (p.traced.reformAll p.registry).Yields (s, []) (n, remaining) (t, es)) :
    ∃ c : κ → Report.Coverage, p.Accounts c n remaining
      ∧ (∀ k ∈ p.owners, p.supports k .reform = false → c k = .nothing)
      ∧ es = (p.owners.filter fun k => p.supports k .reform).map fun k => p.reformed k (c k) := by
  have hcovering : ∀ e ∈ es, Covering e :=
    (keeps_reformAll (P := fun u => ∀ e ∈ u.2, Covering e) p.registry
      (keeps_reform_covering hp)).yields h (by simp)
  obtain ⟨es', hperform, -, hends⟩ := (traces_reformAll (p := p)).notes s []
  obtain ⟨hresult, hstate⟩ := Prod.mk.inj (hperform.symm.trans h)
  obtain rfl : es' = es := (Prod.mk.inj hstate).2
  rw [hresult] at hends
  obtain ⟨reports, covered, rest, hdivides, hout, hes⟩ := hends
  obtain ⟨rfl, rfl⟩ := Prod.mk.inj hout
  obtain ⟨c, hliteral, hnothing, -, haccounts⟩ := p.accounts_of_divides hdivides
    fun k hk hreform => hcovering ⟨.reform k (p.owned k), some (.report (reports k))⟩
      (hes ▸ List.mem_map.mpr ⟨k, List.mem_filter.mpr ⟨hk, hreform⟩, rfl⟩) _ rfl
  refine ⟨c, haccounts, hnothing, hes.trans (List.map_congr_left fun k hk => ?_)⟩
  obtain ⟨hk, hreform⟩ := List.mem_filter.mp hk
  rw [hliteral k hk hreform, reformed]

/-- The last report is to blame if reformulations fail, and they fail if a report is not
acceptable. -/
theorem reformAll_fails_iff (hp : p.Reports) {s t : σ} {es : List (Event α κ δ τ)}
    {answer : Except (Fault α) (ℕ × List (κ × List ℕ))}
    (h : (p.traced.reformAll p.registry).perform (s, []) = (answer, t, es)) :
    (∀ fault, answer = .error fault → (∃ e ∈ es, e.answer = none)
        ∨ fault.category = .value ∧ ∃ k c, p.reformed k c ∈ es ∧ ¬ c.Acceptable (p.owned k))
      ∧ ((∃ k c, p.reformed k c ∈ es ∧ ¬ c.Acceptable (p.owned k)) →
        ∃ fault, answer = .error fault ∧ fault.category = .value) := by
  obtain ⟨es', hes, hverdict⟩ := scrutinizes_reformAll hp s []
  rw [h] at hes hverdict
  obtain rfl : es = es' := hes
  cases answer with
  | ok out =>
    refine ⟨by simp, ?_⟩
    rintro ⟨k, c, hmem, hc⟩
    exact absurd (hverdict _ hmem) (not_accepted hc)
  | error fault =>
    obtain ⟨init, last, rfl, hinit, hlast⟩ := hverdict
    constructor
    · rintro _ ⟨⟩
      rcases hlast with hnone | ⟨hvalue, k, c, rfl, hc⟩
      · exact .inl ⟨last, by simp, hnone⟩
      · exact .inr ⟨hvalue, k, c, by simp, hc⟩
    · rintro ⟨k, c, hmem, hc⟩
      refine ⟨fault, rfl, ?_⟩
      rcases List.mem_append.mp hmem with hmem | hmem
      · exact absurd (hinit _ hmem) (not_accepted hc)
      · obtain rfl := List.mem_singleton.mp hmem
        rcases hlast with hnone | ⟨hvalue, -⟩
        · simp [reformed] at hnone
        · exact hvalue

/-- The scenarios at the end of a course: every set with constraints left gives one for each. -/
theorem scenarios_of_course (p : Participants α σ κ δ τ) {limit : ℕ} {report : Bool}
    {c : Course α κ δ τ} (hc : c.Follows p limit report) (hreported : c.reported p report = true) :
    (c.resolved p report).scenarios = p.owners.flatMap (fun k => (c.rest k).zip (c.scenarios k))
      ∧ (c.resolved p report).scenarios.map Prod.fst = p.owners.flatMap c.rest
      ∧ ∀ k ∈ p.owners, c.rest k ≠ [] → (c.scenarios k).length = (c.rest k).length
        ∧ ⟨.scenario k (c.rest k), some (.scenarios (c.scenarios k))⟩ ∈ c.events p report := by
  have hbusy : ∀ k ∈ p.owners, c.rest k ≠ [] → k ∈ busy p.owners c.rest := fun k hk hne =>
    List.mem_filter.mpr ⟨hk, by simpa [List.isEmpty_iff] using hne⟩
  have hscenarios : (c.resolved p report).scenarios
      = p.owners.flatMap fun k => (c.rest k).zip (c.scenarios k) := by
    simp only [Course.resolved, hreported, if_true, busy, flatMap_filter]
    refine List.flatMap_congr fun k _ => ?_
    cases hk : c.rest k <;> simp
  refine ⟨hscenarios, ?_, fun k hk hne => ⟨hc.scenarios hreported k (hbusy k hk hne), ?_⟩⟩
  · rw [hscenarios, List.map_flatMap]
    refine List.flatMap_congr fun k hk => ?_
    by_cases hne : c.rest k = []
    · simp [hne]
    · exact List.map_fst_zip (hc.scenarios hreported k (hbusy k hk hne)).ge
  · have hmem : (⟨.scenario k (c.rest k), some (.scenarios (c.scenarios k))⟩ : Event α κ δ τ)
        ∈ c.collections p report := by
      rw [Course.collections, if_pos hreported]
      exact List.mem_map.mpr ⟨k, hbusy k hk hne, rfl⟩
    exact List.mem_append_right _ hmem

/-- The division and the scenarios of a successful resolution. -/
theorem accounts_of_resolve [Inhabited τ] (hp : p.Reports) {limit : ℕ} {report : Bool}
    {g g' : Progress σ κ} {res : Resolved τ} {log : List (Event α κ δ τ)}
    (h : (p.traced.resolve limit report).Yields (g.noting []) res (g'.noting log)) :
    ∃ (c : κ → Report.Coverage) (remaining : List (κ × List ℕ)),
      p.Accounts c res.reformulated remaining
        ∧ (∀ k ∈ p.owners, p.supports k .reform = true → p.reformed k (c k) ∈ log)
        ∧ (∀ k ∈ p.owners, p.supports k .reform = false → c k = .nothing)
        ∧ (res.scenariosReported = true → ∃ found : κ → List τ,
          res.scenarios.map Prod.fst = remaining.flatMap Prod.snd
            ∧ (res.scenarios.map Prod.fst).Nodup
            ∧ res.scenarios = remaining.flatMap (fun q => q.2.zip (found q.1))
            ∧ ∀ q ∈ remaining, q.2 ≠ [] → (found q.1).length = q.2.length
              ∧ ⟨.scenario q.1 q.2, some (.scenarios (found q.1))⟩ ∈ log) := by
  obtain ⟨log', hperform, -, hends⟩ := p.notes_resolve limit report g
  obtain ⟨hresult, hstate⟩ := Prod.mk.inj (hperform.symm.trans h)
  obtain rfl : log' = log := (Prod.mk.inj (Progress.mk.inj hstate).1).2
  rw [hresult] at hends
  obtain ⟨course, hcourse, rfl, rfl⟩ := hends
  have hmem : ∀ k ∈ p.owners, p.supports k .reform = true →
      ⟨.reform k (p.owned k), some (.report (course.reports k))⟩ ∈ course.events p report := by
    intro k hk hreform
    have : (⟨.reform k (p.owned k), some (.report (course.reports k))⟩ : Event α κ δ τ)
        ∈ course.reformulations p :=
      List.mem_map.mpr ⟨k, List.mem_filter.mpr ⟨hk, hreform⟩, rfl⟩
    simp [Course.events, this]
  have hcovering : ∀ e ∈ course.events p report, Covering e :=
    (keeps_resolve_covering hp limit report).yields h (by simp [Progress.noting])
  obtain ⟨c, hliteral, hnothing, hrest, haccounts⟩ := p.accounts_of_divides hcourse.divides
    fun k hk hreform => hcovering _ (hmem k hk hreform) _ rfl
  refine ⟨c, _, haccounts, fun k hk hreform => ?_, hnothing, fun hreported => ?_⟩
  · have := hmem k hk hreform
    rwa [hliteral k hk hreform] at this
  · obtain ⟨hscenarios, hkeys, hnoted⟩ := p.scenarios_of_course hcourse hreported
    have hremaining : (p.owners.map fun k => (k, course.rest k)).flatMap Prod.snd
        = p.owners.flatMap course.rest := List.flatMap_map ..
    refine ⟨course.scenarios, hkeys.trans hremaining.symm, ?_,
      by rw [hscenarios, List.flatMap_map], ?_⟩
    · rw [hkeys, List.flatMap_congr hrest]
      exact p.nodup_flatMap fun k => (c k).left_sublist _
    · intro q hq
      obtain ⟨k, hk, rfl⟩ := List.mem_map.mp hq
      exact hnoted k hk

end Resolution

/-- **No constraint is lost or resolved twice.** Let every set that returns from a reformulation
report nothing, a count, or a collection of indices. If the reformulations succeed, the reports are
acceptable and divide the constraints of every set, and of the model. They fail for the reports if
and only if one of them is not acceptable, and then as a bad value. In a whole resolution the
scenarios belong to the remaining constraints, each one with that which its owner gave at its
position. -/
theorem reformulation_accounts [Scalar α] [DecidableEq κ] [Inhabited τ] (p : Participants α σ κ δ τ)
    (hp : p.Reports) :
    (∀ s t answer es, (p.traced.reformAll p.registry).perform (s, []) = (answer, t, es) →
      (∀ n remaining, answer = .ok (n, remaining) → ∃ c : κ → Report.Coverage,
        p.Accounts c n remaining
          ∧ (∀ k ∈ p.owners, p.supports k .reform = false → c k = .nothing)
          ∧ es = (p.owners.filter fun k => p.supports k .reform).map fun k => p.reformed k (c k))
      ∧ (∀ fault, answer = .error fault → (∃ e ∈ es, e.answer = none)
          ∨ fault.category = .value
            ∧ ∃ k c, p.reformed k c ∈ es ∧ ¬ c.Acceptable (p.owned k))
      ∧ ((∃ k c, p.reformed k c ∈ es ∧ ¬ c.Acceptable (p.owned k)) →
          ∃ fault, answer = .error fault ∧ fault.category = .value))
    ∧ ∀ (limit : ℕ) (report : Bool) (g g' : Progress σ κ) (res : Resolved τ)
        (log : List (Event α κ δ τ)),
      (p.traced.resolve limit report).Yields (g.noting []) res (g'.noting log) →
      ∃ (c : κ → Report.Coverage) (remaining : List (κ × List ℕ)),
        p.Accounts c res.reformulated remaining
          ∧ (∀ k ∈ p.owners, p.supports k .reform = true → p.reformed k (c k) ∈ log)
          ∧ (∀ k ∈ p.owners, p.supports k .reform = false → c k = .nothing)
          ∧ (res.scenariosReported = true → ∃ found : κ → List τ,
            res.scenarios.map Prod.fst = remaining.flatMap Prod.snd
              ∧ (res.scenarios.map Prod.fst).Nodup
              ∧ res.scenarios = remaining.flatMap (fun q => q.2.zip (found q.1))
              ∧ ∀ q ∈ remaining, q.2 ≠ [] → (found q.1).length = q.2.length
                ∧ ⟨.scenario q.1 q.2, some (.scenarios (found q.1))⟩ ∈ log) := by
  refine ⟨fun s t answer es h => ⟨?_, reformAll_fails_iff hp h⟩,
    fun limit report g g' res log h => accounts_of_resolve hp h⟩
  rintro n remaining rfl
  exact accounts_of_reformAll hp h

/-! ## Two sets that share four constraints -/

/-- Two sets own the constraints in turn. The first one reports one of its constraints twice, the
second one does not reformulate. -/
def relay : Participants Extended Unit ℕ Unit ℕ where
  count := 4
  owner := fun i => i % 2
  kindName := fun _ => "Relay"
  supports := fun k phase => !(k == 1 && phase == .reform)
  register := fun _ _ => pure ⟨⟩
  setup := fun _ => pure ⟨⟩
  start := pure ⟨⟩
  reform := fun _ _ => pure (Report.Coverage.indices [2, 2]).literal
  solve := pure .optimal
  cut := fun _ _ => pure []
  addCuts := fun _ => pure ⟨⟩
  scenario := fun _ is => pure (is.map (10 * ·))

theorem relay_reports : relay.Reports := by
  intro k is s r t h
  obtain ⟨rfl, -⟩ := yields_pure.mp h
  exact ⟨_, rfl⟩

theorem relay_accounts : ∃ (g : Progress Unit ℕ) (res : Resolved ℕ) (c : ℕ → Report.Coverage)
    (remaining : List (ℕ × List ℕ)), (relay.resolve 5 true).Yields ⟨⟨⟩, none⟩ res g
      ∧ res.reformulated = 1 ∧ res.scenarios = [(0, 0), (1, 10), (3, 30)]
      ∧ relay.Accounts c 1 remaining ∧ remaining.flatMap Prod.snd = [0, 1, 3] := by
  have hrun : (relay.traced.resolve 5 true).Yields ((⟨⟨⟩, none⟩ : Progress Unit ℕ).noting [])
      ⟨⟨.optimal, 0, 0⟩, 1, [(0, 0), (1, 10), (3, 30)], true⟩
      ((⟨⟨⟩, some relay.registry⟩ : Progress Unit ℕ).noting
        ((relay.traced.resolve 5 true).perform
          ((⟨⟨⟩, none⟩ : Progress Unit ℕ).noting [])).2.world.2) := rfl
  obtain ⟨c, remaining, haccounts, -, -, hscenarios⟩ :=
    (reformulation_accounts relay relay_reports).2 5 true _ _ _ _ hrun
  obtain ⟨_, hkeys, -⟩ := hscenarios rfl
  exact ⟨⟨⟨⟩, some relay.registry⟩, _, c, remaining, rfl, rfl, rfl, haccounts, hkeys.symm⟩

end Participants

end RobustOpt
