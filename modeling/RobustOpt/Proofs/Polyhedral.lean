import RobustOpt.Proofs.Polyhedral.Reformulation

/-!
# Polyhedral sets get it right

The set of a polyhedral kind consists of the values within the bounds that satisfy the rows. After a
setup the worst case, be it a vertex of a box or the optimum of the adversarial problem, and the
reformulation are right for it.

## Main definitions

* `Polyhedral.Region`: the values the parameters can take.
* `Polyhedral.IsSetUp`: what a setup leaves behind.

## Main statements

* `Polyhedral.yields_setup`: what a setup takes from a model and the preferences.
* `Polyhedral.maximizes_geometry`, `Polyhedral.exact_geometry`: worst case and reformulation are
  right.
-/

namespace RobustOpt

open Finset Bilinear

namespace Polyhedral

/-- The values the parameters of a model can take: within their bounds, and in the polyhedron
assembled from these and the set constraints. -/
def Region (d : Polyhedral Extended) (model : Model Extended) (u : ℕ → ℚ) : Prop :=
  WithinBounds model.parameters.length model.parameterBounds.1 model.parameterBounds.2 u
    ∧ ∃ p, polyhedronOf model.parameters.length model.parameterBounds.1 model.parameterBounds.2
        d.constraints = .ok p ∧ p.Contains model.parameters.length u

/-- All data of the polyhedron of a set are rational. -/
def Rational (d : Polyhedral Extended) (model : Model Extended) : Prop :=
  ∀ p, polyhedronOf model.parameters.length model.parameterBounds.1 model.parameterBounds.2
    d.constraints = .ok p → p.Rational

/-- Without set constraints the polyhedron has the rows of the bounds only. -/
theorem polyhedronOf_of_isBox {d : Polyhedral Extended} (hd : d.isBox = true) (n : ℕ)
    (lower upper : List Extended) :
    polyhedronOf n lower upper d.constraints = .ok (box n lower upper n) := by
  rw [List.isEmpty_iff.mp hd]
  rfl

theorem region_of_isBox {d : Polyhedral Extended} (hd : d.isBox = true) {model : Model Extended}
    {u : ℕ → ℚ} : d.Region model u ↔
      WithinBounds model.parameters.length model.parameterBounds.1 model.parameterBounds.2 u :=
  ⟨And.left, fun h => ⟨h, _, polyhedronOf_of_isBox hd _ _ _, ((box_spec h le_rfl).2 u).mpr h⟩⟩

/-- The data of a box are rational if it is not empty. -/
theorem rational_of_isBox {d : Polyhedral Extended} (hd : d.isBox = true) {model : Model Extended}
    {u : ℕ → ℚ} (hu : d.Region model u) : d.Rational model := by
  intro p hp
  rw [polyhedronOf_of_isBox hd] at hp
  obtain rfl := Except.ok.inj hp
  exact rational_box ((region_of_isBox hd).mp hu) le_rfl

/-- A set whose data were taken from the model. -/
def IsSetUp (d : Polyhedral Extended) (model : Model Extended) : Prop :=
  d.bounds = some model.parameterBounds
    ∧ ∃ p, d.polyhedron = some p ∧ polyhedronOf model.parameters.length model.parameterBounds.1
        model.parameterBounds.2 d.constraints = .ok p

/-- What a setup takes from a model and the preferences. -/
theorem yields_setup {model : Model Extended} {prefs : Preferences Extended} {preferCuts : Bool}
    {d d' : Polyhedral Extended} {r : Unit} : (setup model prefs preferCuts).Yields d r d' ↔
      ∃ p, polyhedronOf model.parameters.length model.parameterBounds.1 model.parameterBounds.2
          d.constraints = .ok p
        ∧ d' = ⟨d.constraints, some model.parameterBounds, some p, preferCuts && !d.isBox,
          prefs.get Preferences.adversarySolver .absent⟩ := by
  simp only [setup, Action.yields_modify_bind, Action.yields_get_bind, Action.yields_lift_bind,
    Action.yields_modify]
  refine exists_congr fun p => and_congr_right fun _ => eq_comm

/-- What the polyhedron of a set contains is its region, if that is not empty. -/
theorem region_iff_contains {d : Polyhedral Extended} {model : Model Extended}
    {p : Polyhedron Extended} (hp : polyhedronOf model.parameters.length model.parameterBounds.1
      model.parameterBounds.2 d.constraints = .ok p) (hne : ∃ u, d.Region model u) (u : ℕ → ℚ) :
    d.Region model u ↔ p.Contains model.parameters.length u := by
  obtain ⟨w, hw, -⟩ := hne
  constructor
  · rintro ⟨-, p', h, hu⟩
    exact Except.ok.inj (h.symm.trans hp) ▸ hu
  · exact fun hu => ⟨(polyhedronOf_spec hp hw).2.1 u hu, p, hp, hu⟩

/-- The worst cases of a polyhedral set that is not empty are right. Only those of a box do without
a solver. -/
theorem maximizes_geometry {d : Polyhedral Extended} {model : Model Extended}
    {solver : Solver Extended} (hs : d.isBox = true ∨ solver.Exact) (hset : d.IsSetUp model)
    (hne : ∃ u, d.Region model u) :
    (d.geometry solver).Maximizes model.parameters.length (fun _ => True) (d.Region model) := by
  obtain ⟨hbounds, p, hpoly, hp⟩ := hset
  intro c us _ h
  unfold geometry worstCase at h
  split_ifs at h with hbox
  · rw [hbounds] at h
    obtain ⟨u, hu⟩ := hne
    obtain ⟨v, hv, hvb, hmax⟩ := boxVertex_spec ((region_of_isBox hbox).mp hu) h
    exact ⟨v, hv, (region_of_isBox hbox).mpr hvb,
      fun q hq => hmax q ((region_of_isBox hbox).mp hq)⟩
  · rw [hpoly] at h
    obtain ⟨v, rfl, hv, hmax⟩ := Polyhedron.maximizer_spec (hs.resolve_left hbox) h
    simp only [region_iff_contains hp hne]
    refine ⟨v, ?_, hv, hmax⟩
    simp [scalars, Function.comp_def]

/-- Worst case and reformulation of a polyhedral set are right, if the set is not empty. -/
theorem exact_geometry {d : Polyhedral Extended} {model : Model Extended}
    {solver : Solver Extended} (hs : solver.Exact) (hset : d.IsSetUp model) (hr : d.Rational model)
    (hne : ∃ u, d.Region model u) :
    (d.geometry solver).Exact model.parameters.length (fun _ => True) (d.Region model) := by
  refine ⟨maximizes_geometry (.inr hs) hset hne, ?_⟩
  obtain ⟨-, p, hpoly, hp⟩ := hset
  intro q s ds certain rhs supply hq hsign _ hold hwithin heval
  have hregion := region_iff_contains hp hne
  obtain ⟨w, hw⟩ := hne
  simp only [geometry, hpoly, hregion]
  exact reformulate_spec (polyhedronOf_spec hp hw.1).1 (hr p hp) ((hregion w).mp hw) rhs hq hsign
    hold hwithin heval

end Polyhedral

end RobustOpt
