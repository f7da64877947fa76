import RobustOpt.Proofs.Renaming
import RobustOpt.Proofs.Renewal

/-!
# Reformulations with later columns

A reformulation takes its auxiliary columns from a supply. From a later supply it makes the same
constraints, with columns that are later by as much.

## Main definitions

* `Supply.later`: a supply from which columns were taken.
* `Column.Renaming.later`: put off the columns of a supply.
* `Geometry.Relocates`: what a kind of set contributes depends on the supply in this way only.
* `Supply.Relocated`: masters with the same constraints, made from two supplies.

## Main statements

* `Polyhedral.relocates`, `Budget.relocates`: both kinds of sets reformulate so.
* `UncertaintySet.alike_reform`: reformulations from two supplies are alike.
-/

namespace RobustOpt

/-! ## Supplies -/

/-- A supply from which `d` more columns and `e` more auxiliary numbers were taken. -/
def Supply.later (d e : ℕ) (s : Supply) : Supply := ⟨s.serial + d, s.auxiliary + e⟩

/-- The role of an auxiliary column with a number later by `e`. -/
def Column.Role.later (e : ℕ) : Role → Role
  | decision i => decision i
  | auxiliary k => auxiliary (k + e)

theorem Column.Role.later_injective (e : ℕ) : Function.Injective (later e) := by
  rintro (i | k) (i' | k') h
  · exact h
  · cases h
  · cases h
  · simpa [later] using h

/-- Put off the columns from `b` on: their places by `d`, their auxiliary numbers by `e`. -/
def Column.Renaming.later (b d e : ℕ) : Column.Renaming where
  toFun c := if c.serial < b then c else { c with
    serial := c.serial + d
    role := c.role.later e }
  injective := by
    rintro ⟨s, i, r, n, z⟩ ⟨s', i', r', n', z'⟩ h
    dsimp only at h
    split at h <;> split at h
    · exact h
    · have hserial : s = s' + d := congrArg Column.serial h
      omega
    · have hserial : s + d = s' := congrArg Column.serial h
      omega
    · simpa [(Role.later_injective e).eq_iff] using h
  precedes_eq := by
    rintro ⟨s, i, r, n, z⟩ ⟨s', i', r', n', z'⟩
    simp only [precedes]
    split <;> split <;> simp <;> grind
  nonneg_eq := by
    intro c
    split <;> rfl
  integer_eq := by
    intro c
    split <;> rfl

section Later

variable {b d e : ℕ}

theorem Column.Renaming.later_of_lt {c : Column} (h : c.serial < b) : later b d e c = c :=
  if_pos h

theorem Supply.later_serial_le {s : Supply} (h : b ≤ s.serial) : b ≤ (s.later d e).serial :=
  Nat.le_trans h (Nat.le_add_right _ _)

theorem Supply.later_later (s : Supply) (d' e' : ℕ) :
    (s.later d e).later d' e' = s.later (d + d') (e + e') := by
  simp [later, Nat.add_assoc]

/-- New columns leave a supply that is later by one. -/
theorem Supply.fresh_snd (s : Supply) (size : Option ℕ) (nonneg : Bool) :
    (s.fresh size nonneg).2 = s.later 1 1 := rfl

/-- A later supply gives later columns. -/
theorem Supply.fresh_later {s : Supply} (h : b ≤ s.serial) (size : Option ℕ) (nonneg : Bool) :
    (s.later d e).fresh size nonneg
      = ((s.fresh size nonneg).1.map (Column.Renaming.later b d e),
        (s.fresh size nonneg).2.later d e) := by
  have hnew : ∀ entry, Column.Renaming.later b d e
      (Column.mk s.serial entry (.auxiliary s.auxiliary) nonneg false)
      = Column.mk (s.serial + d) entry (.auxiliary (s.auxiliary + e)) nonneg false := fun entry =>
    if_neg (Nat.not_lt.mpr h)
  refine Prod.ext ?_ ?_
  · cases size with
    | none => exact congrArg (· :: []) (hnew none).symm
    | some n =>
      show (List.range n).map _ = ((List.range n).map _).map _
      rw [List.map_map]
      exact List.map_congr_left fun i _ => (hnew (some i)).symm
  · simp [fresh, later, Nat.add_right_comm]

/-- New columns for the items of a list, none if it is empty. -/
def Supply.freshFor {β : Type} (s : Supply) (items : List β) (nonneg : Bool) :
    List Column × Supply :=
  if items.isEmpty then ([], s) else s.fresh (some items.length) nonneg

theorem Supply.exists_freshFor_snd {β : Type} (s : Supply) (items : List β) (nonneg : Bool) :
    ∃ n k, (s.freshFor items nonneg).2 = s.later n k := by
  unfold freshFor
  split
  · exact ⟨0, 0, rfl⟩
  · exact ⟨1, 1, rfl⟩

theorem Supply.freshFor_later {β : Type} {s : Supply} (h : b ≤ s.serial) (items : List β)
    (nonneg : Bool) :
    (s.later d e).freshFor items nonneg
      = ((s.freshFor items nonneg).1.map (Column.Renaming.later b d e),
        (s.freshFor items nonneg).2.later d e) := by
  unfold freshFor
  split
  · rfl
  · exact fresh_later h _ _

end Later

/-! ## Expressions of given and of new columns -/

namespace Affine

variable {α : Type} [Scalar α] {ρ : Column.Renaming}

omit [Scalar α] in
theorem rename_auxiliary (c : Column) : (auxiliary c : Affine α).rename ρ = auxiliary (ρ c) := by
  unfold auxiliary rename
  split
  · rename_i h
    rw [h]
  · rfl

theorem rename_addColumns (e : Affine α) (terms : List (α × Column)) :
    (e.addColumns terms).rename ρ = (e.rename ρ).addColumns (terms.map (Prod.map id ρ)) := by
  unfold addColumns
  rw [List.filter_map, List.foldl_map]
  show _ = ((terms.filter fun t => !Scalar.isZero t.1).foldl _ _)
  induction (terms.filter fun t => !Scalar.isZero t.1) generalizing e with
  | nil => rfl
  | cons t ts ih =>
    rw [List.foldl_cons, List.foldl_cons, ih, rename, rename, rename_auxiliary]
    rfl

theorem rename_addColumns_zip (e : Affine α) (xs : List α) (cols : List Column) :
    (e.addColumns (xs.zip cols)).rename ρ = (e.rename ρ).addColumns (xs.zip (cols.map ρ)) := by
  rw [rename_addColumns, List.zip_map_right]

omit [Scalar α] in
theorem rename_combination {c : α} {terms : List (α × String × Column)}
    (h : ∀ t ∈ terms, ρ t.2.2 = t.2.2) : (combination c terms).rename ρ = combination c terms := by
  have hfold : ∀ (ts : List (α × String × Column)) (e : Affine α), (∀ t ∈ ts, ρ t.2.2 = t.2.2) →
      (ts.foldl (fun e t => add e (scale t.1 (column t.2.1 t.2.2))) e).rename ρ
        = ts.foldl (fun e t => add e (scale t.1 (column t.2.1 t.2.2))) (e.rename ρ) := by
    intro ts
    induction ts with
    | nil => exact fun _ _ => rfl
    | cons t ts ih =>
      intro e h
      obtain ⟨ht, hts⟩ := List.forall_mem_cons.mp h
      rw [List.foldl_cons, List.foldl_cons, ih _ hts, rename, rename, rename, if_pos ht, ht]
  exact hfold terms (constant c) h

/-- What is made of decision variables that keep their names keeps them. -/
theorem rename_ofCoefficients {cs : List α} {decisions : List (Decision α)} {e : Affine α}
    (hdec : ∀ x ∈ decisions, ρ x.column = x.column) (h : ofCoefficients cs decisions = .ok e) :
    e.rename ρ = e := by
  unfold ofCoefficients at h
  split at h
  · cases h
  · obtain rfl := Except.ok.inj h
    refine rename_combination fun t ht => ?_
    obtain ⟨p, hp, rfl⟩ := List.mem_map.mp ht
    exact hdec _ (List.of_mem_zip (List.mem_of_mem_filter hp)).2

theorem rename_ofMap {linear : List (List α)} {offset : List α} {decisions : List (Decision α)}
    {es : List (Affine α)} (hdec : ∀ x ∈ decisions, ρ x.column = x.column)
    (h : ofMap linear offset decisions = .ok es) : ∀ e ∈ es, e.rename ρ = e := by
  unfold ofMap at h
  split at h
  · cases h
  · obtain rfl := Except.ok.inj h
    intro e he
    obtain ⟨r, -, rfl⟩ := List.mem_map.mp he
    refine rename_combination fun t ht => ?_
    obtain ⟨p, hp, rfl⟩ := List.mem_map.mp ht
    exact hdec _ (List.of_mem_zip (List.mem_of_mem_filter hp)).2

end Affine

namespace LinearConstraint

variable {α : Type} (ρ : Column.Renaming)

theorem rename_atMost (left right : Affine α) :
    (atMost left right).rename ρ = atMost (left.rename ρ) (right.rename ρ) := rfl

theorem rename_atMost_constant {left : Affine α} (h : left.rename ρ = left) (right : α) :
    (atMost left (.constant right)).rename ρ = atMost left (.constant right) := by
  rw [rename_atMost, h, Affine.rename]

theorem rename_entrywise (relation : Relation) (left right : List (Affine α)) :
    (entrywise relation left right).rename ρ
      = entrywise relation (left.map (Affine.rename ρ)) (right.map (Affine.rename ρ)) := by
  unfold entrywise rename
  rw [List.zip_map]
  rfl

end LinearConstraint

/-! ## Reformulations -/

variable {α : Type} [Scalar α]

/-- From a later supply the constraints have columns that are later by as much. -/
structure Geometry.Relocates (g : Geometry α) : Prop where
  grows : ∀ side certain rhs decisions supply r,
    g.reformulate side certain rhs decisions supply = .ok r → ∃ n k, r.2 = supply.later n k
  later : ∀ b d e side certain rhs decisions supply, b ≤ supply.serial →
    certain.rename (.later b d e) = certain →
    (∀ x ∈ decisions, Column.Renaming.later b d e x.column = x.column) →
    g.reformulate side certain rhs decisions (supply.later d e)
      = (g.reformulate side certain rhs decisions supply).map fun r =>
        (r.1.map (LinearConstraint.rename (.later b d e)), r.2.later d e)

namespace Polyhedral

/-- The constraints on the multipliers of a side, which are given columns. -/
def multiplierConstraints (p : Polyhedron α) (slopes : List (Affine α)) (certain : Affine α)
    (rhs : α) (below equal : List Column) : List (LinearConstraint α) :=
  let dual := (List.range slopes.length).map fun i =>
    ((Affine.constant 0).addColumns ((p.a.map fun row => row.getD i 0).zip below)).addColumns
      ((p.e.map fun row => row.getD i 0).zip equal)
  [.entrywise .equal slopes dual,
    .atMost ((certain.addColumns (p.b.zip below)).addColumns (p.f.zip equal)) (.constant rhs)]

theorem multiplierConstraints_rename {ρ : Column.Renaming} (p : Polyhedron α)
    {slopes : List (Affine α)} {certain : Affine α} (hslopes : ∀ e ∈ slopes, e.rename ρ = e)
    (hcertain : certain.rename ρ = certain) (rhs : α) (below equal : List Column) :
    (multiplierConstraints p slopes certain rhs below equal).map (LinearConstraint.rename ρ)
      = multiplierConstraints p slopes certain rhs (below.map ρ) (equal.map ρ) := by
  have hself : slopes.map (Affine.rename ρ) = slopes :=
    (List.map_congr_left hslopes).trans (List.map_id slopes)
  simp [multiplierConstraints, LinearConstraint.rename_entrywise,
    LinearConstraint.rename_atMost, hself, Affine.rename_addColumns_zip, hcertain, Affine.rename,
    Function.comp_def]

theorem reformulate_eq (p : Polyhedron α) (side : Bilinear.Side α) (certain : Affine α) (rhs : α)
    (decisions : List (Decision α)) (supply : Supply) :
    reformulate p side certain rhs decisions supply
      = (Affine.ofMap side.linear side.offset decisions).map fun slopes =>
        let below := supply.freshFor p.b true
        let equal := below.2.freshFor p.f false
        (multiplierConstraints p slopes certain rhs below.1 equal.1, equal.2) := by
  unfold reformulate
  cases Affine.ofMap side.linear side.offset decisions <;> rfl

section Reformulate

variable {p : Polyhedron α} {side : Bilinear.Side α} {certain : Affine α} {rhs : α}
  {decisions : List (Decision α)} {supply : Supply} {b d e : ℕ}

theorem exists_later_of_reformulate {r : List (LinearConstraint α) × Supply}
    (h : reformulate p side certain rhs decisions supply = .ok r) :
    ∃ n k, r.2 = supply.later n k := by
  rw [reformulate_eq] at h
  obtain ⟨slopes, -, rfl⟩ := map_eq_ok.mp h
  obtain ⟨n, k, hbelow⟩ := supply.exists_freshFor_snd p.b true
  obtain ⟨n', k', hequal⟩ := (supply.freshFor p.b true).2.exists_freshFor_snd p.f false
  exact ⟨n + n', k + k', hequal.trans (by rw [hbelow, Supply.later_later])⟩

theorem reformulate_later (hb : b ≤ supply.serial)
    (hcertain : certain.rename (.later b d e) = certain)
    (hdec : ∀ x ∈ decisions, Column.Renaming.later b d e x.column = x.column) :
    reformulate p side certain rhs decisions (supply.later d e)
      = (reformulate p side certain rhs decisions supply).map fun r =>
        (r.1.map (LinearConstraint.rename (.later b d e)), r.2.later d e) := by
  rw [reformulate_eq, reformulate_eq]
  cases hslopes : Affine.ofMap side.linear side.offset decisions with
  | error => rfl
  | ok slopes =>
    obtain ⟨n, k, hbelow⟩ := supply.exists_freshFor_snd p.b true
    have hmid : b ≤ (supply.freshFor p.b true).2.serial := hbelow ▸ Supply.later_serial_le hb
    simp only [Except.map, Supply.freshFor_later hb, Supply.freshFor_later hmid,
      multiplierConstraints_rename p (Affine.rename_ofMap hdec hslopes) hcertain]

end Reformulate

theorem relocates (s : Polyhedral α) (solver : Solver α) : (s.geometry solver).Relocates := by
  obtain ⟨constraints, bounds, polyhedron, adversary⟩ := s
  cases polyhedron with
  | none => exact ⟨fun _ _ _ _ _ _ h => (nomatch h), fun _ _ _ _ _ _ _ _ _ _ _ => rfl⟩
  | some p => exact ⟨fun _ _ _ _ _ _ h => exists_later_of_reformulate (p := p) h,
      fun _ _ _ _ _ _ _ _ hb hcertain hdec => reformulate_later (p := p) hb hcertain hdec⟩

end Polyhedral

namespace Budget

/-- The nominal value of a side whose parameters have given coefficients. -/
def expectedValue (nominal : List α) (slopes : List (Affine α)) (certain : Affine α) : Affine α :=
  (nominal.zip slopes).foldl (fun acc p => .add acc (.scale p.1 p.2)) certain

omit [Scalar α] in
theorem rename_expectedValue {ρ : Column.Renaming} (nominal : List α) {slopes : List (Affine α)}
    {certain : Affine α} (hslopes : ∀ e ∈ slopes, e.rename ρ = e)
    (hcertain : certain.rename ρ = certain) :
    (expectedValue nominal slopes certain).rename ρ = expectedValue nominal slopes certain := by
  have hzip : ∀ q ∈ nominal.zip slopes, q.2.rename ρ = q.2 := fun q hq =>
    hslopes _ (List.of_mem_zip hq).2
  unfold expectedValue
  generalize nominal.zip slopes = qs at hzip
  induction qs generalizing certain with
  | nil => exact hcertain
  | cons q qs ih =>
    obtain ⟨hq, hqs⟩ := List.forall_mem_cons.mp hzip
    exact ih (by rw [Affine.rename, Affine.rename, hcertain, hq]) hqs

/-- The constraints of a side that spends the budget, with given auxiliary columns. -/
def spendingConstraints (gamma : α) (deviation : List α) (slopes : List (Affine α))
    (expected : Affine α) (rhs : α) (t p pi : List Column) : List (LinearConstraint α) :=
  let symbols := fun (cs : List Column) => cs.map Affine.auxiliary
  let spread := List.zipWith Affine.scale deviation slopes
  let covered := (symbols p).map fun e =>
    pi.foldl (fun acc c => .add (Affine.auxiliary c) acc) e
  [.entrywise .atMost spread (symbols t),
    .entrywise .atMost (spread.map Affine.neg) (symbols t),
    .entrywise .atMost (symbols t) covered,
    .atMost ((expected.addColumns (pi.map fun c => (gamma, c))).addColumns
      (p.map fun c => (1, c))) (.constant rhs)]

theorem spendingConstraints_rename {ρ : Column.Renaming} (gamma : α) (deviation : List α)
    {slopes : List (Affine α)} {expected : Affine α} (hslopes : ∀ e ∈ slopes, e.rename ρ = e)
    (hexpected : expected.rename ρ = expected) (rhs : α) (t p pi : List Column) :
    (spendingConstraints gamma deviation slopes expected rhs t p pi).map
        (LinearConstraint.rename ρ)
      = spendingConstraints gamma deviation slopes expected rhs (t.map ρ) (p.map ρ) (pi.map ρ) := by
  have hself : slopes.map (Affine.rename ρ) = slopes :=
    (List.map_congr_left hslopes).trans (List.map_id slopes)
  have hspread : (List.zipWith Affine.scale deviation slopes).map (Affine.rename ρ)
      = List.zipWith Affine.scale deviation slopes := by
    calc _ = List.zipWith Affine.scale deviation (slopes.map (Affine.rename ρ)) := by
          rw [List.map_zipWith, List.zipWith_map_right]
          rfl
      _ = _ := by rw [hself]
  have hcovered : ∀ (cs : List Column) (e : Affine α),
      (cs.foldl (fun acc c => .add (Affine.auxiliary c) acc) e).rename ρ
        = (cs.map ρ).foldl (fun acc c => .add (Affine.auxiliary c) acc) (e.rename ρ) := by
    intro cs
    induction cs with
    | nil => exact fun _ => rfl
    | cons c cs ih =>
      intro e
      rw [List.map_cons, List.foldl_cons, List.foldl_cons, ih, Affine.rename,
        Affine.rename_auxiliary]
  have hneg : ∀ es : List (Affine α), (es.map Affine.neg).map (Affine.rename ρ)
      = (es.map (Affine.rename ρ)).map Affine.neg := by
    simp [Affine.rename]
  simp only [spendingConstraints, List.map_cons, List.map_nil, LinearConstraint.rename_entrywise,
    LinearConstraint.rename_atMost, hspread, hneg, Affine.rename_addColumns, hexpected,
    Affine.rename, List.map_map, Function.comp_def, Affine.rename_auxiliary, hcovered, Prod.map,
    id_eq]

theorem reformulate_eq (gamma : α) (nominal deviation : List α) (side : Bilinear.Side α)
    (certain : Affine α) (rhs : α) (decisions : List (Decision α)) (supply : Supply) :
    reformulate gamma nominal deviation side certain rhs decisions supply
      = if (active side).isEmpty then .ok ([.atMost certain (.constant rhs)], supply)
        else (Affine.ofMap (pick [] (active side) side.linear) (pick 0 (active side) side.offset)
          decisions).map fun slopes =>
          let deviation := pick 0 (active side) deviation
          let expected := expectedValue (pick 0 (active side) nominal) slopes certain
          if Scalar.isZero gamma || !(deviation.any fun d => Scalar.lt 0 d) then
            ([.atMost expected (.constant rhs)], supply)
          else
            let t := supply.fresh (some (active side).length) false
            let p := t.2.fresh (some (active side).length) true
            let pi := p.2.fresh none true
            (spendingConstraints gamma deviation slopes expected rhs t.1 p.1 pi.1, pi.2) := by
  unfold reformulate
  dsimp only
  cases (active side).isEmpty with
  | true => rfl
  | false =>
    cases Affine.ofMap (pick [] (active side) side.linear) (pick 0 (active side) side.offset)
      decisions with
    | error => rfl
    | ok slopes =>
      rw [if_neg Bool.false_ne_true, if_neg Bool.false_ne_true]
      show (if _ then _ else _) = Except.ok (if _ then _ else _)
      split <;> rfl

section Reformulate

variable {gamma : α} {nominal deviation : List α} {side : Bilinear.Side α} {certain : Affine α}
  {rhs : α} {decisions : List (Decision α)} {supply : Supply} {b d e : ℕ}

theorem exists_later_of_reformulate {r : List (LinearConstraint α) × Supply}
    (h : reformulate gamma nominal deviation side certain rhs decisions supply = .ok r) :
    ∃ n k, r.2 = supply.later n k := by
  rw [reformulate_eq] at h
  split at h
  · obtain rfl := Except.ok.inj h
    exact ⟨0, 0, rfl⟩
  · obtain ⟨slopes, -, rfl⟩ := map_eq_ok.mp h
    dsimp only
    split
    · exact ⟨0, 0, rfl⟩
    · exact ⟨3, 3, rfl⟩

theorem reformulate_later (hb : b ≤ supply.serial)
    (hcertain : certain.rename (.later b d e) = certain)
    (hdec : ∀ x ∈ decisions, Column.Renaming.later b d e x.column = x.column) :
    reformulate gamma nominal deviation side certain rhs decisions (supply.later d e)
      = (reformulate gamma nominal deviation side certain rhs decisions supply).map fun r =>
        (r.1.map (LinearConstraint.rename (.later b d e)), r.2.later d e) := by
  rw [reformulate_eq, reformulate_eq]
  split
  · rw [Except.map, List.map_singleton, LinearConstraint.rename_atMost_constant _ hcertain]
  · cases hslopes : Affine.ofMap (pick [] (active side) side.linear)
        (pick 0 (active side) side.offset) decisions with
    | error => rfl
    | ok slopes =>
      have hfixed := Affine.rename_ofMap hdec hslopes
      have hexpected := rename_expectedValue (pick 0 (active side) nominal) hfixed hcertain
      simp only [Except.map]
      split
      · simp only [List.map_cons, List.map_nil, LinearConstraint.rename_atMost_constant _ hexpected]
      · have h₁ : b ≤ (supply.later 1 1).serial := Supply.later_serial_le hb
        have h₂ : b ≤ ((supply.later 1 1).later 1 1).serial := Supply.later_serial_le h₁
        simp only [Supply.fresh_later hb, Supply.fresh_snd, Supply.fresh_later h₁,
          Supply.fresh_later h₂, spendingConstraints_rename gamma _ hfixed hexpected]

end Reformulate

theorem relocates (s : Budget α) : s.geometry.Relocates := by
  obtain ⟨gamma, givenNominal, givenDeviation, data⟩ := s
  cases data with
  | none =>
    constructor
    · intro side certain rhs decisions supply r h
      have h : (if (active side).isEmpty then Except.ok _ else _) = Except.ok r := h
      split at h
      · obtain rfl := Except.ok.inj h
        exact ⟨0, 0, rfl⟩
      · cases h
    · intro b d e side certain rhs decisions supply hb hcertain hdec
      show (if (active side).isEmpty then Except.ok _ else _)
        = Except.map _ (if (active side).isEmpty then Except.ok _ else _)
      split
      · rw [Except.map, List.map_singleton, LinearConstraint.rename_atMost_constant _ hcertain]
      · rfl
  | some data => exact ⟨fun _ _ _ _ _ _ h => exists_later_of_reformulate h,
      fun _ _ _ _ _ _ _ _ hb hcertain hdec => reformulate_later hb hcertain hdec⟩

end Budget

/-! ## Masters from two supplies -/

/-- Masters whose constraints were made from a supply and from a later one. -/
structure Supply.Relocated (start : Supply) (d e : ℕ) (t t' : Master α × Supply) : Prop where
  master : t'.1 = t.1.rename (.later start.serial d e)
  grown : ∃ n k, t.2 = start.later n k
  later : t'.2 = t.2.later d e

namespace CuttingPlane

open RobustOpt.Action

variable {g : Geometry α} {model : Model α} {start : Supply} {d e : ℕ} {t t' : Master α × Supply}

section Reform

variable (hg : g.Relocates)
include hg

theorem exists_later_of_reformSide {dense : List (List α)} {sign rhs : α} {supply : Supply}
    {r : List (LinearConstraint α) × Supply}
    (h : reformSide g model dense sign rhs supply = .ok r) : ∃ n k, r.2 = supply.later n k := by
  obtain ⟨q, -, h⟩ := bind_eq_ok.mp h
  obtain ⟨certain, -, h⟩ := bind_eq_ok.mp h
  exact hg.grows q certain rhs model.decisions supply r h

theorem reformSide_later {b : ℕ} (dense : List (List α)) (sign rhs : α) {supply : Supply}
    (hb : b ≤ supply.serial)
    (hdec : ∀ x ∈ model.decisions, Column.Renaming.later b d e x.column = x.column) :
    reformSide g model dense sign rhs (supply.later d e)
      = (reformSide g model dense sign rhs supply).map fun r =>
        (r.1.map (LinearConstraint.rename (.later b d e)), r.2.later d e) := by
  unfold reformSide
  cases Bilinear.splitSide? dense sign model.parameters.length with
  | error => rfl
  | ok q =>
    show (Affine.ofCoefficients q.certain model.decisions >>= _)
      = Except.map _ (Affine.ofCoefficients q.certain model.decisions >>= _)
    cases hcertain : Affine.ofCoefficients q.certain model.decisions with
    | error => rfl
    | ok certain =>
      exact hg.later b d e q certain rhs model.decisions supply hb
        (Affine.rename_ofCoefficients hdec hcertain) hdec

variable (hdec : ∀ x ∈ model.decisions, Column.Renaming.later start.serial d e x.column = x.column)
include hdec

theorem alike_addSide (dense : List (List α)) (side : α × α) (h : start.Relocated d e t t') :
    Alike (fun _ => start.Relocated d e) (addSide g model dense side) (addSide g model dense side)
      t t' := by
  obtain ⟨n, k, hgrown⟩ := h.grown
  have hserial : start.serial ≤ t.2.serial := hgrown ▸ Supply.later_serial_le (Nat.le_refl _)
  have hp := perform_addSide g model dense side t
  have hp' := perform_addSide g model dense side t'
  rw [h.later, reformSide_later hg dense side.1 side.2 hserial hdec] at hp'
  cases hr : reformSide g model dense side.1 side.2 t.2 with
  | error e =>
    rw [hr] at hp hp'
    exact .fails hp hp'
  | ok r =>
    rw [hr] at hp hp'
    obtain ⟨n', k', hnext⟩ := exists_later_of_reformSide hg hr
    refine .yields hp hp' ⟨?_, ⟨n + n', k + k', ?_⟩, rfl⟩
    · show t'.1.addConstraints _ = (t.1.addConstraints _).rename _
      rw [Master.rename_addConstraints, h.master]
    · show r.2 = _
      rw [hnext, hgrown, Supply.later_later]

theorem alike_reform (plane : CuttingPlane α) (is : List Int) (h : start.Relocated d e t t') :
    Alike (fun _ => start.Relocated d e) (plane.reform g model is) (plane.reform g model is)
      t t' := by
  refine Alike.forM (fun _ => start.Relocated d e) h fun _ i u u' _ hu => ?_
  refine Alike.bind (R := fun _ => start.Relocated d e) (alike_lift fun _ _ => hu)
    fun q v v' _ hv => ?_
  refine Alike.bind (R := fun _ => start.Relocated d e) (alike_lift fun _ _ => hv)
    fun c x x' _ hx => ?_
  exact Alike.forM (fun _ => start.Relocated d e) hx fun _ side y y' _ hy =>
    alike_addSide hg hdec _ side hy

end Reform

/-- Cuts have columns of the decision variables only. -/
theorem rename_of_mem_cuts {ρ : Column.Renaming} {plane : CuttingPlane α} {point : List α}
    {is : List Int} {cs : List (LinearConstraint α)}
    (hdec : ∀ x ∈ model.decisions, ρ x.column = x.column)
    (h : plane.cuts g model point is = .ok cs) : ∀ c ∈ cs, c.rename ρ = c := by
  intro c hc
  obtain ⟨found, hfound, h⟩ := bind_eq_ok.mp h
  obtain rfl := pure_eq_ok.mp h
  obtain ⟨_, hr, rfl⟩ := List.mem_filterMap.mp hc
  obtain ⟨rs, hrs, hr⟩ := List.mem_flatten.mp hr
  obtain ⟨i, -, hi⟩ := exists_of_mem_result hfound hrs
  obtain ⟨q, -, hi⟩ := bind_eq_ok.mp hi
  obtain ⟨k, -, hi⟩ := bind_eq_ok.mp hi
  obtain ⟨side, -, hside⟩ := exists_of_mem_result hi hr
  obtain ⟨⟨u, lhs⟩, -, hside⟩ := bind_eq_ok.mp hside
  obtain ⟨violated, -, hside⟩ := bind_eq_ok.mp hside
  cases violated with
  | false => cases hside
  | true =>
    obtain ⟨e, he, hside⟩ := bind_eq_ok.mp hside
    obtain ⟨rfl⟩ := Option.some.inj (pure_eq_ok.mp hside)
    exact LinearConstraint.rename_atMost_constant _ (Affine.rename_ofCoefficients hdec he) _

end CuttingPlane

namespace UncertaintySet

open RobustOpt.Action

variable {model : Model α} {start : Supply} {d e : ℕ} {b b' : Bench α}

/-- Reformulations from two supplies are alike, and leave the sets as they are. -/
theorem alike_reform
    (hdec : ∀ x ∈ model.decisions, Column.Renaming.later start.serial d e x.column = x.column)
    (is : List Int) (hs : b.set.plane?.isSome = true) (hset : b'.set = b.set)
    (h : start.Relocated d e (b.master, b.supply) (b'.master, b'.supply)) :
    Alike (fun _ c c' => c.set = b.set ∧ c'.set = b.set
        ∧ start.Relocated d e (c.master, c.supply) (c'.master, c'.supply))
      (reform model is) (reform model is) b b' := by
  refine Alike.get_bind ?_
  rw [hset]
  obtain ⟨s, m, supply⟩ := b
  obtain ⟨s', m', supply'⟩ := b'
  obtain rfl : s' = s := hset
  have hreform : ∀ (plane : CuttingPlane α) (g : Geometry α), g.Relocates →
      Alike (fun _ c c' => c.set = s' ∧ c'.set = s'
          ∧ start.Relocated d e (c.master, c.supply) (c'.master, c'.supply))
        (onMaster (plane.reform g model is) >>= fun _ => pure (reportOf is : Literal α))
        (onMaster (plane.reform g model is) >>= fun _ => pure (reportOf is))
        ⟨s', m, supply⟩ ⟨s', m', supply'⟩ := fun plane g hg =>
    (Alike.onState (CuttingPlane.alike_reform hg hdec plane is h) fun _ _ _ ht =>
      ⟨rfl, rfl, ht⟩).bind fun _ _ _ _ ht => alike_pure ht
  cases s' with
  | bare | scripted => cases hs
  | polyhedral plane data =>
    exact alike_ite (fun _ => alike_pure ⟨rfl, rfl, h⟩) fun _ =>
      hreform plane _ (Polyhedral.relocates data .builtin)
  | budget plane data =>
    exact alike_ite (fun _ => alike_pure ⟨rfl, rfl, h⟩) fun _ =>
      hreform plane _ (Budget.relocates data)

end UncertaintySet

end RobustOpt
