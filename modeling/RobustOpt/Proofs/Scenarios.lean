import RobustOpt.Proofs.Polyhedral.Box
import RobustOpt.Proofs.Separation

/-!
# Scenarios are worst cases

The scenario of a constraint is the worst case of the side that is left with the least slack at the
present values of the decision variables. Of all sides and all values the parameters can take, none
leaves less. An entry may be undefined where a parameter matters to no side. However such an entry
is read, the sides are the same at the scenario, so that its least slack is that of the constraint.

## Main definitions

* `Scenario.Reads`: parameter values as a scenario has them.
* `Model.slackAt`, `Model.IsLeastSlack`: what the sides of a constraint leave.
* `Model.IsWorstScenario`: a scenario with the least slack.
* `Geometry.Legible`: worst cases without infinite entries.

## Main statements

* `UncertaintySet.HasData.legible`: which sets have worst cases without infinite entries.
* `CuttingPlane.exists_scenario`: the scenario of a constraint whose worst cases are known.
* `UncertaintySet.scenarios_worst`: the scenarios of a set are worst cases, index by index.
-/

namespace RobustOpt

open Bilinear

/-! ## Entries of worst cases -/

/-- Parameter values that a scenario stands for: its numbers as they are and zero for an undefined
entry. An infinite entry leaves them open. -/
def Scenario.Reads (s : Scenario Extended) (v : ℕ → ℚ) : Prop :=
  ∀ i < s.length, (∀ q, s.getD i 0 = .finite q → v i = q) ∧ (s.getD i 0 = .undefined → v i = 0)

/-- Where parameters in `A` matter, the worst cases that a set answers have numbers for them or
undefined entries. -/
def Geometry.Legible (g : Geometry Extended) (n : ℕ) (A : ℕ → Prop) : Prop :=
  ∀ (c : ℕ → ℚ) (u : List Extended), (∀ i < n, ¬ A i → c i = 0) →
    g.worstCase (scalars n c) = .ok u →
    ∀ i < n, A i → Scalar.isFinite (u.getD i 0) = true ∨ u.getD i 0 = .undefined

/-- What a scenario reads at an entry that is not infinite is what the worst case was taken for. -/
theorem Scenario.Reads.eq {s : Scenario Extended} {n i : ℕ} {v w : ℕ → ℚ} (h : s.Reads w)
    (hv : s.map Scalar.toFinite = scalars n v) (hi : i < n)
    (hentry : Scalar.isFinite (s.getD i 0) = true ∨ s.getD i 0 = .undefined) : w i = v i := by
  have hlen : s.length = n := by simpa using congrArg List.length hv
  obtain ⟨hnumber, hundefined⟩ := h i (hlen ▸ hi)
  have hvi : v i = (Scalar.toFinite (s.getD i 0)).rat := by
    rw [map_toFinite, hlen] at hv
    have := congrArg (Extended.coord · i) hv
    simpa only [coord_scalars _ hi] using this.symm
  rcases hentry with hfin | hnan
  · obtain ⟨q, hq⟩ := Extended.isFinite_iff.mp hfin
    rw [hvi, hq, Extended.toFinite_finite, Extended.rat_finite]
    exact hnumber q hq
  · rw [hvi, hnan]
    exact hundefined hnan

theorem Polyhedral.legible_vertexEntry {i : ℕ} {c : ℚ} {l t x : Extended}
    (h : vertexEntry i (.finite c) l t = .ok x) : Scalar.isFinite x = true ∨ x = .undefined := by
  obtain ⟨hx, hfin⟩ := vertexEntry_eq_ok h
  by_cases hc : c = 0
  · rw [if_pos hc] at hx
    by_cases hbound : Scalar.isFinite l = true ∨ Scalar.isFinite t = true
    · exact .inl (hx ▸ isFinite_freeValue hbound)
    · obtain ⟨hl, ht⟩ := not_or.mp hbound
      exact .inr (by rw [hx, freeValue]; simp [hl, ht, Scalar.nan])
  · exact .inl (hfin hc)

/-- The worst cases of a box have no infinite entries, those of an exact solver none at all. -/
theorem Polyhedral.legible_geometry {d : Polyhedral Extended} {model : Model Extended}
    {solver : Solver Extended} (hs : d.isBox = true ∨ solver.Exact) (hset : d.IsSetUp model) :
    (d.geometry solver).Legible model.parameters.length fun _ => True := by
  obtain ⟨hbounds, p, hpoly, -⟩ := hset
  intro c u _ h i hi _
  replace h : d.worstCase (scalars model.parameters.length c) solver = .ok u := h
  unfold worstCase at h
  by_cases hbox : d.isBox = true
  · rw [if_pos hbox, hbounds] at h
    exact legible_vertexEntry ((boxVertex_eq_ok h).2 i hi)
  · rw [if_neg hbox, hpoly] at h
    obtain ⟨v, rfl, -⟩ := Polyhedron.maximizer_spec (hs.resolve_left hbox) h
    rw [List.getD_eq_getElem _ _ (by simpa using hi)]
    exact .inl (isFinite_of_mem_scalars (List.getElem_mem _))

/-- A parameter that counts has a number in every worst case of a budget set. -/
theorem Budget.legible_geometry {b : Budget Extended} {model : Model Extended}
    {forms : List (SparseMatrix Extended)} (hb : b.WellFormed) (hset : b.IsSetUp model forms) :
    b.geometry.Legible model.parameters.length
      (Counts (b.dataFor model).1 (b.dataFor model).2) := by
  obtain ⟨gamma, hgamma, -⟩ := hb.gamma
  intro c u hc h i hi hcount
  have hdata : b.data = some ((b.dataFor model).1, (b.dataFor model).2) := hset.data
  obtain rfl := worstCase_eq_ok hdata hgamma hset.nominal hset.deviation hc h
  rw [List.getD_eq_getElem _ _ (by simpa using hi), List.getElem_map, List.getElem_range,
    ← Extended.finite_rat hcount.1, ← Extended.finite_rat hcount.2]
  left
  split_ifs <;> rfl

namespace UncertaintySet

variable {s : UncertaintySet Extended} {model : Model Extended}

/-- The worst cases of boxes, of budget sets and, with an exact solver, of all polyhedral sets have
no infinite entries where the parameters matter. -/
theorem HasData.legible (h : s.HasData model) (hs : s.Checked) {solver : Solver Extended}
    (hkind : s.HasExtremes ∨ solver.Exact) :
    (s.geometryWith solver).Legible model.parameters.length (s.Usable model) := by
  cases s with
  | bare | scripted => cases h
  | polyhedral plane d => exact Polyhedral.legible_geometry hkind h
  | budget plane b => exact Budget.legible_geometry hs h

end UncertaintySet

/-! ## Slacks -/

namespace Model

variable (model : Model Extended)

/-- What a side leaves between its value and its right side. -/
def slackAt (p : SparseMatrix Extended × Extended × Extended) (u : ℕ → ℚ) (y : Point) : ℚ :=
  p.2.2.rat - model.sideAt p.1 p.2 u y

/-- The least slack of the sides of a constraint at a point, for values of the parameters in `U`. -/
def IsLeastSlack (U : (ℕ → ℚ) → Prop) (y : Point) (i : ℤ) (least : ℚ) : Prop :=
  IsLeast {b | ∃ p ∈ model.sidesAt i, ∃ u, U u ∧ model.slackAt p u y = b} least

/-- A scenario that leaves a constraint the least slack of all values of the parameters in `U`. -/
def IsWorstScenario (U : (ℕ → ℚ) → Prop) (y : Point) (i : ℤ) (s : Scenario Extended) : Prop :=
  s.length = model.parameters.length ∧ ∃ least, model.IsLeastSlack U y i least
    ∧ ∀ v, s.Reads v → model.IsLeastSlack (· = v) y i least

/-- What is found for a side at a point: a slack with a scenario for it. The scenario stands for
values `v` that leave the side no more than any others, where parameters in `A` matter. -/
structure Finds (A : ℕ → Prop) (U : (ℕ → ℚ) → Prop) (y : Point)
    (p : SparseMatrix Extended × Extended × Extended) (found : Extended × Scenario Extended)
    (v : ℕ → ℚ) : Prop where
  slack : found.1 = .finite (model.slackAt p v y)
  taken : U v
  least : ∀ w, U w → model.slackAt p v y ≤ model.slackAt p w y
  length : found.2.length = model.parameters.length
  reads : ∀ w, found.2.Reads w → ∀ i < model.parameters.length, A i → w i = v i

variable {model}

/-- A side does not depend on parameters that its form does not use. -/
theorem slackAt_congr {q : SparseMatrix Extended} {A : ℕ → Prop}
    (hA : OnlyUses q model.parameters.length A) (side : Extended × Extended) {v w : ℕ → ℚ}
    (h : ∀ i < model.parameters.length, A i → w i = v i) (y : Point) :
    model.slackAt (q, side) w y = model.slackAt (q, side) v y := by
  simp only [slackAt, sideAt, valueAt_eq_slope]
  congr 2
  refine Finset.sum_congr rfl fun i hi => ?_
  have hi := Finset.mem_range.mp hi
  by_cases hAi : A i
  · rw [h i hi hAi]
  · rw [hA.slope_eq_zero hi hAi, mul_zero, mul_zero]

/-- A constraint that is found is one of the uncertain constraints. -/
theorem exists_of_constraint? {i : ℤ} {c : UncertainConstraint Extended}
    (h : model.constraint? i = .ok c) : ∃ k ∈ model.uncertain, k.constraint = c := by
  unfold constraint? at h
  split at h
  · rename_i k hk
    obtain ⟨j, -, hj⟩ := Option.bind_eq_some_iff.mp hk
    exact ⟨k, List.mem_of_getElem? hj, Except.ok.inj h⟩
  · cases h

/-- Bounds of which one is finite have a side. -/
theorem sides_ne_nil {c : UncertainConstraint Extended}
    (h : Scalar.isFinite c.lower = true ∨ Scalar.isFinite c.upper = true) : c.sides ≠ [] := by
  intro hnil
  obtain ⟨hupper, hlower⟩ := List.append_eq_nil_iff.mp hnil
  rcases h with h | h
  · simp [h] at hlower
  · simp [h] at hupper

/-- Of what is found for the sides of a constraint, the scenario with the least slack is the worst
one. -/
theorem IsWorstScenario.of_found {A : ℕ → Prop} {U : (ℕ → ℚ) → Prop} {y : Point} {i : ℤ}
    {found : List (Extended × Scenario Extended)}
    (hfound : List.Forall₂ (fun p f => ∃ v, model.Finds A U y p f v) (model.sidesAt i) found)
    (hA : ∀ p ∈ model.sidesAt i, OnlyUses p.1 model.parameters.length A)
    {b : Extended × Scenario Extended} (hb : b ∈ found)
    (hleast : ∀ f ∈ found, b.1.rat ≤ f.1.rat) : model.IsWorstScenario U y i b.2 := by
  obtain ⟨p, hp, v, hv⟩ := exists_of_mem_right hfound hb
  have hslack : b.1.rat = model.slackAt p v y := by rw [hv.slack, Extended.rat_finite]
  have hbelow : ∀ p' ∈ model.sidesAt i, ∀ w, U w → model.slackAt p v y ≤ model.slackAt p' w y := by
    intro p' hp' w hw
    obtain ⟨f, hf, v', hv'⟩ := exists_of_mem_left hfound hp'
    calc model.slackAt p v y = b.1.rat := hslack.symm
      _ ≤ f.1.rat := hleast f hf
      _ = model.slackAt p' v' y := by rw [hv'.slack, Extended.rat_finite]
      _ ≤ model.slackAt p' w y := hv'.least w hw
  -- the other sides are read at the scenario too, which was made for the side `p` only
  have hread : ∀ w, b.2.Reads w → ∀ p' ∈ model.sidesAt i,
      model.slackAt p' w y = model.slackAt p' v y :=
    fun w hw p' hp' => slackAt_congr (hA p' hp') p'.2 (hv.reads w hw) y
  refine ⟨hv.length, _, ⟨⟨p, hp, v, hv.taken, rfl⟩, ?_⟩, fun w hw => ⟨⟨p, hp, w, rfl, ?_⟩, ?_⟩⟩
  · rintro _ ⟨p', hp', w, hw, rfl⟩
    exact hbelow p' hp' w hw
  · exact hread w hw p hp
  · rintro _ ⟨p', hp', _, rfl, rfl⟩
    rw [hread _ hw p' hp']
    exact hbelow p' hp' v hv.taken

end Model

namespace CuttingPlane

section Found

variable {α : Type} [Scalar α]

/-- The slack of a side in its worst case, with the worst case. -/
def sideSlack (g : Geometry α) (q : SparseMatrix α) (side : α × α) (point : List α) :
    Except (Fault α) (α × Scenario α) := do
  let (u, lhs) ← sideWorstCase g q side.1 point
  return (side.2 - lhs, u)

/-- Keep the first of the scenarios with the least slack. -/
def keep (best : Option (α × Scenario α)) (p : α × Scenario α) : Option (α × Scenario α) :=
  match best with
  | none => some p
  | some b => if Scalar.lt p.1 b.1 then some p else some b

theorem scenario_eq (plane : CuttingPlane α) (g : Geometry α) (model : Model α) (point : List α)
    (i : ℤ) :
    plane.scenario g model point i = (do
      let q ← plane.form? i
      let c ← model.constraint? i
      let found ← c.sides.mapM fun side => sideSlack g q side point
      match found.foldl keep none with
      | some b => return b.2
      | none => throw .wrongKind) :=
  rfl

end Found

variable {plane : CuttingPlane Extended} {model : Model Extended} {g : Geometry Extended}
  {A : ℕ → Prop} {U : (ℕ → ℚ) → Prop}

/-- What is kept is one of the scenarios that were looked at, and none of them has less slack. -/
theorem foldl_keep_some (l : List (Extended × Scenario Extended)) (b : Extended × Scenario Extended)
    (hfin : ∀ f ∈ b :: l, Scalar.isFinite f.1 = true) :
    ∃ k ∈ b :: l, l.foldl keep (some b) = some k ∧ ∀ f ∈ b :: l, k.1.rat ≤ f.1.rat := by
  induction l generalizing b with
  | nil => exact ⟨b, by simp⟩
  | cons p l ih =>
    obtain ⟨hb, hl⟩ := List.forall_mem_cons.mp hfin
    obtain ⟨hp, hl'⟩ := List.forall_mem_cons.mp hl
    obtain ⟨x, hx⟩ := Extended.isFinite_iff.mp hb
    obtain ⟨y, hy⟩ := Extended.isFinite_iff.mp hp
    -- ties are kept, so that of equal slacks the first one stays
    by_cases hlt : y < x
    · obtain ⟨k, hk, hfold, hleast⟩ := ih p hl
      refine ⟨k, by grind, by simpa [keep, hx, hy, hlt] using hfold, ?_⟩
      have : k.1.rat ≤ y := by simpa [hy] using hleast p (by simp)
      have : b.1.rat = x := by rw [hx, Extended.rat_finite]
      grind
    · obtain ⟨k, hk, hfold, hleast⟩ := ih b (List.forall_mem_cons.mpr ⟨hb, hl'⟩)
      refine ⟨k, by grind, by simpa [keep, hx, hy, hlt] using hfold, ?_⟩
      have : k.1.rat ≤ x := by simpa [hx] using hleast b (by simp)
      have : p.1.rat = y := by rw [hy, Extended.rat_finite]
      grind

/-- Of finite slacks the least one is kept. -/
theorem exists_kept {l : List (Extended × Scenario Extended)} (hl : l ≠ [])
    (hfin : ∀ f ∈ l, Scalar.isFinite f.1 = true) :
    ∃ k ∈ l, l.foldl keep none = some k ∧ ∀ f ∈ l, k.1.rat ≤ f.1.rat := by
  obtain ⟨b, l, rfl⟩ := List.exists_cons_of_ne_nil hl
  exact foldl_keep_some l b hfin

/-- What is found for a side whose worst case is known. -/
theorem exists_sideSlack (hg : g.Maximizes model.parameters.length A U)
    (hlegible : g.Legible model.parameters.length A) {q : SparseMatrix Extended}
    (hq : Shaped q model.parameters.length model.decisions.length)
    (hA : OnlyUses q model.parameters.length A) {side : Extended × Extended}
    (hside : IsSign side.1 ∧ Scalar.isFinite side.2 = true) {values : Valuation Extended}
    (hfin : values.Finite)
    (hworst : ∃ u, g.worstCase (sensitivity q side.1 (model.point values)).1 = .ok u) :
    ∃ f, sideSlack g q side (model.point values) = .ok f
      ∧ ∃ v, model.Finds A U values.point (q, side) f v := by
  obtain ⟨sign, rhs⟩ := side
  obtain ⟨hsign, hrhs⟩ := hside
  obtain ⟨b, rfl⟩ := Extended.isFinite_iff.mp hrhs
  obtain ⟨u, v, hu, huv, hv, hmax⟩ : ∃ u v, g.worstCase (scalars model.parameters.length
        (slope q model.decisions.length sign.rat
          (Decision.valuesAt model.decisions values.point))) = .ok u
      ∧ u.map Scalar.toFinite = scalars model.parameters.length v ∧ U v
      ∧ ∀ w, U w → model.sideAt q (sign, .finite b) w values.point
        ≤ model.sideAt q (sign, .finite b) v values.point :=
    hg.exists_worst_at hA hq hsign.isFinite hfin hworst
  rw [Model.point_eq model hfin]
  have hslack := sideWorstCase_spec hq hsign.isFinite hu huv
  refine ⟨_, bind_eq_ok.mpr ⟨_, hslack, rfl⟩, v, ?_⟩
  exact {
    slack := Extended.finite_sub _ _
    taken := hv
    least := fun w hw => sub_le_sub_left (hmax w hw) _
    length := by simpa using congrArg List.length huv
    reads := fun w hw i hi hAi => hw.eq huv hi (hlegible _ u
      (fun j hj hAj => hA.slope_eq_zero hj hAj _ _ _) hu i hi hAi) }

/-- The scenario of a registered constraint is a worst one, if the worst cases of its sides are
known. -/
theorem exists_scenario (hprep : plane.Prepared model) {i : ℤ} (hi : i ∈ plane.indices)
    {point : List Extended} {y : Point}
    (hA : ∀ q, (i, q) ∈ plane.forms → OnlyUses q model.parameters.length A)
    (hbounded : ∀ k ∈ model.uncertain, Scalar.isFinite k.constraint.lower = true
      ∨ Scalar.isFinite k.constraint.upper = true)
    (h : ∀ q, (i, q) ∈ plane.forms → ∀ side, (q, side) ∈ model.sidesAt i →
      ∃ f, sideSlack g q side point = .ok f ∧ ∃ v, model.Finds A U y (q, side) f v) :
    ∃ s, plane.scenario g model point i = .ok s ∧ model.IsWorstScenario U y i s := by
  obtain ⟨q, c, hq, hmem, hc, hmatrix⟩ := hprep.form?_eq hi
  have hsides := Model.sidesAt_eq hc hmatrix
  obtain ⟨found, hfound, hR⟩ := exists_mapM
    (f := fun side : Extended × Extended => sideSlack g q side point)
    (R := fun side f => ∃ v, model.Finds A U y (q, side) f v) (l := c.sides)
    fun side hside => h q hmem side (hsides ▸ List.mem_map_of_mem hside)
  have hne : found ≠ [] := by
    rintro rfl
    obtain ⟨k, hk, rfl⟩ := Model.exists_of_constraint? hc
    exact Model.sides_ne_nil (hbounded k hk) (List.forall₂_nil_right_iff.mp hR)
  obtain ⟨b, hb, hfold, hleast⟩ := exists_kept hne fun f hf => by
    obtain ⟨side, -, v, hv⟩ := exists_of_mem_right hR hf
    rw [hv.slack]
    rfl
  refine ⟨b.2, ?_, Model.IsWorstScenario.of_found (A := A) ?_ ?_ hb hleast⟩
  · rw [scenario_eq]
    refine bind_eq_ok.mpr ⟨q, hq, bind_eq_ok.mpr ⟨c, hc, bind_eq_ok.mpr ⟨found, hfound, ?_⟩⟩⟩
    rw [hfold]
    rfl
  · rw [hsides]
    exact List.forall₂_map_left_iff.mpr hR
  · intro p hp
    rw [hsides] at hp
    obtain ⟨side, -, rfl⟩ := List.mem_map.mp hp
    exact hA q hmem

end CuttingPlane

namespace UncertaintySet

variable {s s' : UncertaintySet Extended} {model : Model Extended} {prefs : Preferences Extended}

/-- The scenarios of a set, which they leave as it is. -/
theorem yields_scenarios {plane : CuttingPlane Extended} (h : s.plane? = some plane)
    {solver : Solver Extended} {values : Valuation Extended} {is : List ℤ}
    {ss : List (Option (Scenario Extended))} :
    (scenarios model values is solver).Yields s ss s' ↔
      (∃ l, is.mapM (plane.scenario (s.geometryWith solver) model (model.point values)) = .ok l
        ∧ l.map some = ss) ∧ s' = s := by
  rw [Action.Yields, perform_scenarios h, Prod.mk.injEq, map_eq_ok, eq_comm (a := s)]
  rfl

/-- After the setup of a set that is not empty, be it a box, a budget set or, with an exact solver,
any polyhedral set, the registered constraints have a scenario each, in the order of the indices, if
no worst case is refused. A scenario leaves its constraint the least slack that any side has for any
values the parameters can take. One bound of a constraint is finite and the bounds of parameters do
not cross, which is checked when they are made. -/
theorem scenarios_worst {report : Bool} {r : Unit} {solver : Solver Extended}
    {plane : CuttingPlane Extended} {values : Valuation Extended} {is : List ℤ}
    (hsetup : (setup model report prefs).Yields s r s') (hgeo : s.IsGeometric) (hs : s.Checked)
    (hkind : s.HasExtremes ∨ solver.Exact) (hne : ∃ u, s.Region model u)
    (hbounds : ∀ p ∈ model.parameters, Scalar.lt p.upper p.lower = false)
    (hbounded : ∀ k ∈ model.uncertain, Scalar.isFinite k.constraint.lower = true
      ∨ Scalar.isFinite k.constraint.upper = true)
    (hplane : s'.plane? = some plane) (hforms : ∀ p ∈ plane.forms, p.2.Finite)
    (his : ∀ i ∈ is, i ∈ plane.indices) (hfin : values.Finite)
    (hworst : ∀ p ∈ model.sidesAlong is, ∃ u, (s'.geometryWith solver).worstCase
      (sensitivity p.1 p.2.1 (model.point values)).1 = .ok u) :
    ∃ ss : List (Scenario Extended),
      (scenarios model values is solver).Yields s' (ss.map some) s'
      ∧ List.Forall₂ (model.IsWorstScenario (s.Region model) values.point) is ss := by
  have hset := (yields_setup hgeo).mp hsetup
  have hcore := hset.core_eq
  have hdata := hset.hasData hs
  have hs' := (checked_of_core hcore).mpr hs
  have hkind' := hkind.imp_left (hasExtremes_of_core hcore).mpr
  obtain ⟨-, plane', -, hplane', hprep, -⟩ := hset.plane_spec
  obtain rfl := Option.some.inj (hplane.symm.trans hplane')
  rw [← region_eq_of_core hcore] at hne ⊢
  have hmax := hdata.maximizes hs' hkind' hne hbounds
  have hshape : ∀ i q, (i, q) ∈ plane.forms →
      Shaped q model.parameters.length model.decisions.length := by
    intro i q hq
    obtain ⟨c, hc, hmatrix⟩ := hprep.of_mem hq
    exact Mixed.shaped_coefficientMatrix hmatrix (hforms _ hq)
  have hscenario : ∀ i ∈ is, ∃ sc,
      plane.scenario (s'.geometryWith solver) model (model.point values) i = .ok sc
        ∧ model.IsWorstScenario (s'.Region model) values.point i sc := by
    intro i hi
    have huses : ∀ q, (i, q) ∈ plane.forms →
        OnlyUses q model.parameters.length (s'.Usable model) :=
      fun q hq => hdata.onlyUses hplane hq (hshape i q hq)
    refine CuttingPlane.exists_scenario hprep (his i hi) huses hbounded ?_
    intro q hq side hside
    have hmem : (q, side) ∈ model.sidesAlong is := List.mem_flatMap.mpr ⟨i, hi, hside⟩
    obtain ⟨c, hc, hmatrix⟩ := hprep.of_mem hq
    rw [Model.sidesAt_eq hc hmatrix] at hside
    obtain ⟨_, hsides, heq⟩ := List.mem_map.mp hside
    obtain ⟨-, rfl⟩ := Prod.mk.inj heq
    exact CuttingPlane.exists_sideSlack hmax (hdata.legible hs' hkind') (hshape i q hq)
      (huses q hq) (Bounded.sides_spec hsides) hfin (hworst _ hmem)
  obtain ⟨ss, hss, hR⟩ := exists_mapM hscenario
  exact ⟨ss, (yields_scenarios hplane).mpr ⟨⟨ss, hss, rfl⟩, rfl⟩, hR⟩

end UncertaintySet

/-! ## The fares of a ferry -/

namespace Ferry

theorem neg_one_le_slackAt {p : SparseMatrix Extended × Extended × Extended}
    (hp : p ∈ model.sidesAt 0) {u : ℕ → ℚ} (hu : responsible.Region model u) :
    -1 ≤ model.slackAt p u values.point := by
  have hp : p ∈ model.sidesAlong [0] := List.mem_flatMap.mpr ⟨0, by simp, hp⟩
  rw [sidesAlong_eq] at hp
  obtain ⟨hlow, hhigh⟩ := region_iff.mp hu
  obtain rfl | rfl : p = (form, .finite 1, .finite 3) ∨ p = (form, .finite (-1), .finite (-1)) := by
    simpa using hp
  all_goals
    simp only [Model.slackAt, sideAt_eq, Extended.rat_finite]
    linarith

/-- The upper bound is exceeded by one at the greatest fare. -/
theorem leastSlack_eq {least : ℚ}
    (h : model.IsLeastSlack (responsible.Region model) values.point 0 least) : least = -1 := by
  obtain ⟨⟨p, hp, u, hu, rfl⟩, hleast⟩ := h
  refine le_antisymm ?_ (neg_one_le_slackAt hp hu)
  have hside : (form, .finite 1, .finite 3) ∈ model.sidesAt 0 := by
    have := sidesAlong_eq
    rw [Model.sidesAlong, List.flatMap_singleton] at this
    simp [this]
  refine hleast ⟨_, hside, fun _ => 2, region_iff.mpr ⟨by norm_num, le_rfl⟩, ?_⟩
  simp only [Model.slackAt, sideAt_eq, Extended.rat_finite]
  norm_num

end Ferry

/-- The scenario of two trips has one too many of the takings, whatever the toll is. -/
theorem ferry_scenarios_worst : ∃ s sc,
    (UncertaintySet.setup Ferry.model false Ferry.prefs).Yields Ferry.responsible ⟨⟩ s
    ∧ (UncertaintySet.scenarios Ferry.model Ferry.values [0] (.ofTable [])).Yields s [some sc] s
    ∧ Ferry.model.IsLeastSlack (Ferry.responsible.Region Ferry.model) Ferry.values.point 0 (-1)
    ∧ ∀ v, sc.Reads v → Ferry.model.IsLeastSlack (· = v) Ferry.values.point 0 (-1) := by
  obtain ⟨p, hset⟩ := Ferry.exists_setup
  have hsetup : (UncertaintySet.setup Ferry.model false Ferry.prefs).Yields Ferry.responsible ⟨⟩
      (Ferry.prepared p) := (UncertaintySet.yields_setup (s := Ferry.responsible) rfl).mpr hset
  obtain ⟨ss, hss, hR⟩ : ∃ ss : List (Scenario Extended),
      (UncertaintySet.scenarios Ferry.model Ferry.values [0] (.ofTable [])).Yields
        (Ferry.prepared p) (ss.map some) (Ferry.prepared p)
      ∧ List.Forall₂ (Ferry.model.IsWorstScenario (Ferry.responsible.Region Ferry.model)
        Ferry.values.point) [0] ss :=
    UncertaintySet.scenarios_worst hsetup rfl trivial (.inl rfl)
      ⟨fun _ => 1, Ferry.region_iff.mpr ⟨le_rfl, by norm_num⟩⟩ (by decide +kernel)
      (by decide +kernel) rfl (by simp [SparseMatrix.Finite, Ferry.form]) (by simp)
      Ferry.finite_values
      (fun side hside => (Ferry.exists_worstCase p _ hside).imp fun _ => And.left)
  cases hR with
  | cons hsc hR =>
    cases hR
    obtain ⟨-, least, hleast, hreads⟩ := hsc
    obtain rfl := Ferry.leastSlack_eq hleast
    exact ⟨_, _, hsetup, hss, hleast, hreads⟩

end RobustOpt
