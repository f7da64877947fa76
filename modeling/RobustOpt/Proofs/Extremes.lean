import Mathlib.Data.Rat.Floor
import RobustOpt.Proofs.UncertaintySet

/-!
# Extreme values of the parameters

The worst cases that a set answers are made of few values: a vertex of a box depends on the signs
of the coefficients only, and a budget set spends whole deviations and what is left of the budget.

## Main definitions

* `UncertaintySet.HasExtremes`: boxes and budget sets.
* `UncertaintySet.extremes`: the values a parameter takes in worst cases.

## Main statements

* `UncertaintySet.Ready.exists_extremes`: worst cases consist of extreme values.
-/

namespace RobustOpt

open Bilinear

/-! ## Boxes -/

namespace Polyhedral

/-- The values of a parameter with given bounds in worst cases over a box: the bounds, and the
value that is taken when neither is worse. -/
def extremes (lower upper : Extended) : Finset ℚ :=
  {(Scalar.toFinite lower).rat, (Scalar.toFinite upper).rat,
    (Scalar.toFinite (freeValue lower upper)).rat}

theorem card_extremes_le (lower upper : Extended) : (extremes lower upper).card ≤ 3 :=
  Finset.card_le_three

theorem boxVertex_mem_extremes {n : ℕ} {lower upper : List Extended} {c : ℕ → ℚ}
    {us : List Extended} (h : boxVertex lower upper (scalars n c) = .ok us) :
    us.length = n ∧ ∀ i < n, (Scalar.toFinite (us.getD i 0)).rat
      ∈ extremes (lower.getD i 0) (upper.getD i 0) := by
  obtain ⟨hlen, hentry⟩ := boxVertex_eq_ok h
  refine ⟨hlen, fun i hi => ?_⟩
  rw [(vertexEntry_eq_ok (hentry i hi)).1]
  split_ifs <;> simp [extremes]

end Polyhedral

/-! ## Budget sets -/

namespace Budget

/-- The values of a parameter in worst cases over a budget set: the nominal value without its
deviation, with all of it, or with the part that is left after whole deviations. -/
def extremes (gamma nominal deviation : ℚ) : Finset ℚ :=
  {nominal, nominal + deviation, nominal - deviation, nominal + deviation * Int.fract gamma,
    nominal - deviation * Int.fract gamma}

theorem card_extremes_le (gamma nominal deviation : ℚ) :
    (extremes gamma nominal deviation).card ≤ 5 :=
  Finset.card_le_five

variable {n : ℕ} {nominal deviation : List Extended} {c : ℕ → ℚ} {gamma : ℚ}

/-- A greedy share is zero, one or the fractional part of the budget, with a sign. -/
theorem add_greedy_mem_extremes (x d : ℚ) {i : ℕ} (hi : i < n) :
    x + d * greedy gamma deviation n c i ∈ extremes gamma x d := by
  obtain h | ⟨t, ht, h, hcases⟩ := greedy_mem gamma deviation n c hi
  · simp [h, extremes]
  · have ht' : t = 1 ∨ t = Int.fract gamma := by
      refine hcases.imp_right fun ⟨hlt, m, hm⟩ => ?_
      rw [hm, Int.fract_intCast_add, Int.fract_eq_self.mpr ⟨ht.le, hlt⟩]
    rw [h]
    unfold signOf
    rcases ht' with rfl | rfl <;> split_ifs <;> simp [extremes, sub_eq_add_neg]

theorem worstCase_mem_extremes {s : Budget Extended} (hdata : s.data = some (nominal, deviation))
    (hgamma : s.gamma = .finite gamma) (hnom : nominal.length = n) (hdev : deviation.length = n)
    (hc : ∀ i < n, ¬ Counts nominal deviation i → c i = 0) {us : List Extended}
    (h : s.worstCase (scalars n c) = .ok us) :
    us.length = n ∧ ∀ i < n, (Scalar.toFinite (us.getD i 0)).rat ∈ extremes gamma
      (Scalar.toFinite (nominal.getD i 0)).rat (Extended.coord deviation i) := by
  obtain rfl := worstCase_eq_ok hdata hgamma hnom hdev hc h
  refine ⟨by simp, fun i hi => ?_⟩
  rw [List.getD_eq_getElem ((List.range n).map _) _ (by simpa using hi), List.getElem_map,
    List.getElem_range]
  by_cases hci : c i = 0
  · rw [if_pos hci, Extended.add_zero]
    simp [extremes]
  · have hcount : Counts nominal deviation i := by
      by_contra hn
      exact hci (hc i hi hn)
    rw [if_neg hci, ← Extended.finite_rat hcount.1, ← Extended.finite_rat hcount.2,
      Extended.finite_mul, Extended.finite_add, Extended.toFinite_finite, Extended.toFinite_finite]
    exact add_greedy_mem_extremes _ _ hi

end Budget

/-! ## Sets -/

namespace UncertaintySet

/-- Boxes and budget sets. -/
def HasExtremes : UncertaintySet Extended → Prop
  | polyhedral _ d => d.isBox = true
  | budget _ _ => True
  | bare _ | scripted _ _ => False

/-- Polyhedral sets without constraints besides the bounds. -/
def IsBox : UncertaintySet Extended → Prop
  | polyhedral _ d => d.isBox = true
  | budget _ _ | bare _ | scripted _ _ => False

/-- The values a parameter takes in worst cases over a box or a budget set. -/
def extremes (s : UncertaintySet Extended) (model : Model Extended) (i : ℕ) : Finset ℚ :=
  match s with
  | polyhedral _ _ => Polyhedral.extremes (model.parameterBounds.1.getD i 0)
      (model.parameterBounds.2.getD i 0)
  | budget _ b => Budget.extremes b.gamma.rat
      (Scalar.toFinite ((b.dataFor model).1.getD i 0)).rat (Extended.coord (b.dataFor model).2 i)
  | bare _ | scripted _ _ => ∅

variable {s s' : UncertaintySet Extended} {model : Model Extended} {prefs : Preferences Extended}

theorem card_extremes_le (s : UncertaintySet Extended) (model : Model Extended) (i : ℕ) :
    (s.extremes model i).card ≤ 5 := by
  cases s with
  | polyhedral => exact (Polyhedral.card_extremes_le _ _).trans (by decide)
  | budget => exact Budget.card_extremes_le _ _ _
  | bare | scripted => exact Nat.zero_le 5

theorem IsBox.card_extremes_le (h : s.IsBox) (model : Model Extended) (i : ℕ) :
    (s.extremes model i).card ≤ 3 := by
  cases s with
  | polyhedral => exact Polyhedral.card_extremes_le _ _
  | budget | bare | scripted => cases h

theorem extremes_of_core (h : s.core = s'.core) (model : Model Extended) (i : ℕ) :
    s.extremes model i = s'.extremes model i := by
  have hcore : ∀ t : UncertaintySet Extended, t.core.extremes model i = t.extremes model i :=
    fun t => by cases t <;> rfl
  rw [← hcore, h, hcore]

theorem hasExtremes_of_core (h : s.core = s'.core) : s.HasExtremes ↔ s'.HasExtremes := by
  have hcore : ∀ t : UncertaintySet Extended, t.core.HasExtremes ↔ t.HasExtremes :=
    fun t => by cases t <;> rfl
  rw [← hcore, h, hcore]

theorem HasExtremes.isGeometric (h : s.HasExtremes) : s.IsGeometric := by
  cases s with
  | polyhedral | budget => rfl
  | bare | scripted => cases h

/-- A worst case consists of extreme values. -/
theorem Ready.exists_extremes {plane : CuttingPlane Extended} {solver : Solver Extended}
    (h : s.Ready model prefs plane) (hs : s.Checked) (hex : s.HasExtremes) {c : ℕ → ℚ}
    (hc : ∀ i < model.parameters.length, ¬ s.Usable model i → c i = 0) {us : List Extended}
    (hw : (s.geometryWith solver).worstCase (scalars model.parameters.length c) = .ok us) :
    ∃ v, us.map Scalar.toFinite = scalars model.parameters.length v
      ∧ ∀ i < model.parameters.length, v i ∈ s.extremes model i := by
  suffices hmem : us.length = model.parameters.length ∧ ∀ i < model.parameters.length,
      (Scalar.toFinite (us.getD i 0)).rat ∈ s.extremes model i by
    refine ⟨_, ?_, hmem.2⟩
    rw [← hmem.1]
    exact map_toFinite us
  cases s with
  | bare | scripted => cases hex
  | polyhedral p d =>
    have hbox : d.isBox = true := hex
    have hworst : d.worstCase (scalars model.parameters.length c) solver = .ok us := hw
    rw [Polyhedral.worstCase, if_pos hbox, h.data.1] at hworst
    exact Polyhedral.boxVertex_mem_extremes hworst
  | budget p b =>
    obtain ⟨gamma, hgamma, -⟩ := hs.gamma
    have hset : b.IsSetUp model (p.forms.map Prod.snd) := h.data
    have hdata : b.data = some ((b.dataFor model).1, (b.dataFor model).2) := hset.data
    have := Budget.worstCase_mem_extremes hdata hgamma hset.nominal hset.deviation hc hw
    simpa only [extremes, hgamma, Extended.rat_finite] using this

end UncertaintySet

end RobustOpt
