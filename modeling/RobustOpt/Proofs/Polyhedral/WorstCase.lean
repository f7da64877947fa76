import RobustOpt.Proofs.Polyhedral.Polyhedron

/-!
# The worst case over a box

The polyhedron assembled from bounds and set constraints contains the values between the bounds that
the constraints allow. Without set constraints it is a box, and the vertex that the signs of the
coefficients select maximizes a linear function over it.

## Main definitions

* `Polyhedral.WithinBounds`: the values between the bounds.
* `Polyhedral.box`: the rows of the bounds.

## Main statements

* `Polyhedral.polyhedronOf_spec`: what the assembled polyhedron contains.
* `Polyhedral.boxVertex_spec`: the vertex is a worst case over the box.
-/

namespace RobustOpt

open Finset Bilinear

namespace Polyhedral

variable {n : ℕ} {lower upper : List Extended} {w u : ℕ → ℚ}

/-- The first `n` entries lie between their bounds. -/
def WithinBounds (n : ℕ) (lower upper : List Extended) (u : ℕ → ℚ) : Prop :=
  ∀ i < n, Between (lower.getD i 0) (upper.getD i 0) (u i)

/-- The rows of the bounds of the parameters. -/
def box (n : ℕ) (lower upper : List Extended) (k : ℕ) : Polyhedron Extended :=
  (List.range k).foldl (fun p i => p.addBounds n i (lower.getD i 0) (upper.getD i 0))
    Polyhedron.empty

theorem box_spec (hw : WithinBounds n lower upper w) {k : ℕ} (hk : k ≤ n) :
    (box n lower upper k).Regular n
      ∧ ∀ u, (box n lower upper k).Contains n u ↔ WithinBounds k lower upper u := by
  induction k with
  | zero =>
    refine ⟨⟨rfl, rfl, by simp [box, Polyhedron.empty]⟩, fun u => ?_⟩
    simp [box, Polyhedron.empty, Polyhedron.Contains, WithinBounds]
  | succ k ih =>
    obtain ⟨hreg, hbox⟩ := ih (by omega)
    have hstep : box n lower upper (k + 1)
        = (box n lower upper k).addBounds n k (lower.getD k 0) (upper.getD k 0) := by
      simp [box, List.range_succ]
    refine ⟨hstep ▸ hreg.addBounds k _ _, fun u => ?_⟩
    rw [hstep, Polyhedron.contains_addBounds hreg hk (hw k hk), hbox]
    constructor
    · rintro ⟨h, hlast⟩ i hi
      rcases Nat.lt_succ_iff_lt_or_eq.mp hi with hi | rfl
      exacts [h i hi, hlast]
    · exact fun h => ⟨fun i hi => h i (by omega), h k (by omega)⟩

/-- Bounds between which there is a number have finite rows. -/
theorem rational_box (hw : WithinBounds n lower upper w) {k : ℕ} (hk : k ≤ n) :
    (box n lower upper k).Rational := by
  induction k with
  | zero => exact ⟨by simp [box, Polyhedron.empty], by simp [box, Polyhedron.empty]⟩
  | succ k ih =>
    have hstep : box n lower upper (k + 1)
        = (box n lower upper k).addBounds n k (lower.getD k 0) (upper.getD k 0) := by
      simp [box, List.range_succ]
    rw [hstep]
    exact (ih (by omega)).addBounds k (hw k hk)

/-- Set constraints with their rows only add rows. -/
theorem addConstraints_of_rows {l : List (SetConstraint Extended × List Extended)}
    (hl : ∀ c ∈ l, c.2.length = n) {p : Polyhedron Extended} (hp : p.Regular n) :
    (l.foldl (fun p c => p.addConstraint c.1 c.2) p).Regular n
      ∧ ∀ u, (l.foldl (fun p c => p.addConstraint c.1 c.2) p).Contains n u → p.Contains n u := by
  induction l generalizing p with
  | nil => exact ⟨hp, fun u hu => hu⟩
  | cons c l ih =>
    obtain ⟨hc, hl⟩ := List.forall_mem_cons.mp hl
    obtain ⟨hstep, hsub⟩ := Polyhedron.addConstraint_spec hp c.1 hc
    obtain ⟨hreg, hrest⟩ := ih hl hstep
    exact ⟨hreg, fun u hu => hsub u (hrest u hu)⟩

theorem length_constraintRow {c : SetConstraint Extended} {s t : Accumulator Extended}
    {row : List Extended} (h : (constraintRow n c).Yields s row t) : row.length = n := by
  have hset : ∀ (items : List (ℕ × Extended)) (row : List Extended),
      (items.foldl (fun row p => row.set p.1 p.2) row).length = row.length := by
    intro items
    induction items with
    | nil => simp
    | cons p items ih =>
      intro row
      rw [List.foldl_cons, ih, List.length_set]
  obtain ⟨items, s', -, h⟩ := Action.yields_bind.mp h
  obtain ⟨rfl, -⟩ := Action.yields_pure.mp h
  rw [hset, List.length_replicate]

/-- The polyhedron of bounds and set constraints has the rows of the bounds. -/
theorem polyhedronOf_spec {cs : List (SetConstraint Extended)} {p : Polyhedron Extended}
    (h : polyhedronOf n lower upper cs = .ok p) (hw : WithinBounds n lower upper w) :
    p.Regular n ∧ (∀ u, p.Contains n u → WithinBounds n lower upper u)
      ∧ (cs = [] → ∀ u, WithinBounds n lower upper u → p.Contains n u) := by
  obtain ⟨rows, hrows, h⟩ := bind_eq_ok.mp h
  obtain rfl := pure_eq_ok.mp h
  obtain ⟨hreg, hbox⟩ := box_spec hw le_rfl
  have hlen : ∀ row ∈ rows, row.length = n := by
    have hyields : (cs.mapM (constraintRow n)).Yields (.empty n) rows
        ((cs.mapM (constraintRow n)).perform (.empty n)).2 := Prod.ext hrows rfl
    refine hyields.mapM (fun _ out _ => ∀ row ∈ out, row.length = n) (by simp) ?_
    intro done out c s row t _ hout hy r hr
    rcases List.mem_append.mp hr with hr | hr
    · exact hout r hr
    · obtain rfl := List.mem_singleton.mp hr
      exact length_constraintRow hy
  obtain ⟨hreg', hsub⟩ := addConstraints_of_rows (l := cs.zip rows)
    (fun c hc => hlen _ (List.of_mem_zip hc).2) hreg
  refine ⟨hreg', fun u hu => (hbox u).mp (hsub u hu), ?_⟩
  rintro rfl u hu
  exact (hbox u).mpr hu

/-! ## The worst case over a box -/

/-- The free value of a parameter lies between its bounds. -/
theorem between_freeValue {l t : Extended} {w : ℚ} (hw : Between l t w) :
    ∃ v, Scalar.toFinite (freeValue l t) = .finite v ∧ Between l t v := by
  have hlow := (between_iff hw (q := w)).mp hw
  obtain ⟨hl, ht⟩ := hw
  cases l with
  | posInf | undefined => simp [Scalar.le, Extended.lt, Extended.eq] at hl
  | negInf =>
    cases t with
    | negInf | undefined => simp [Scalar.le, Extended.lt, Extended.eq] at ht
    | posInf => exact ⟨0, rfl, rfl, rfl⟩
    | finite t =>
      exact ⟨t, by simp [freeValue, Scalar.isFinite, Scalar.toRat?, Extended.toRat?], rfl,
        by simp⟩
  | finite l =>
    cases t with
    | negInf | undefined => simp [Scalar.le, Extended.lt, Extended.eq] at ht
    | posInf => exact ⟨l, by simp [freeValue, Scalar.isFinite, Scalar.toRat?, Extended.toRat?],
        by simp, rfl⟩
    | finite t =>
      have hlt : l ≤ t := (hlow.1 l rfl).trans (hlow.2 t rfl)
      refine ⟨(l + t) / 2, by simp [freeValue], ?_, ?_⟩
      · simp only [Extended.le_finite, decide_eq_true_eq]
        linarith
      · simp only [Extended.le_finite, decide_eq_true_eq]
        linarith

/-- The vertex depends on the sign of each coefficient only. -/
theorem vertexEntry_eq_ok {i : ℕ} {c : ℚ} {l t x : Extended}
    (h : vertexEntry i (.finite c) l t = .ok x) :
    x = (if c = 0 then freeValue l t else if 0 < c then t else l)
      ∧ (c ≠ 0 → Scalar.isFinite x = true) := by
  rcases lt_trichotomy c 0 with hc | rfl | hc
  · simp only [vertexEntry, Extended.isZero_finite, hc.ne, decide_false, Extended.zero_eq,
      Extended.lt_finite, hc.not_gt, Bool.false_eq_true, if_false] at h ⊢
    split_ifs at h with hfin
    obtain rfl := Except.ok.inj h
    exact ⟨rfl, fun _ => hfin⟩
  · simp only [vertexEntry, Extended.isZero_finite, decide_true, if_true] at h ⊢
    exact ⟨(Except.ok.inj h).symm, fun h => absurd rfl h⟩
  · simp only [vertexEntry, Extended.isZero_finite, hc.ne', decide_false, Extended.zero_eq,
      Extended.lt_finite, hc, decide_true, if_true, Bool.false_eq_true, if_false] at h ⊢
    split_ifs at h with hfin
    obtain rfl := Except.ok.inj h
    exact ⟨rfl, fun _ => hfin⟩

/-- An entry of the vertex of a box maximizes its part of the function. -/
theorem vertexEntry_spec {i : ℕ} {c : ℚ} {l t x : Extended} {w : ℚ} (hw : Between l t w)
    (h : vertexEntry i (.finite c) l t = .ok x) :
    ∃ v, Scalar.toFinite x = .finite v ∧ Between l t v ∧ ∀ q, Between l t q → q * c ≤ v * c := by
  have hlow := (between_iff hw (q := w)).mp hw
  obtain ⟨hx, hfin⟩ := vertexEntry_eq_ok h
  rcases lt_trichotomy c 0 with hc | rfl | hc
  · obtain ⟨v, rfl⟩ := Extended.isFinite_iff.mp (hfin hc.ne)
    rw [if_neg hc.ne, if_neg hc.not_gt] at hx
    refine ⟨v, Extended.toFinite_finite v,
      (between_iff hw).mpr ⟨fun l hl => ?_, fun t ht => ?_⟩, ?_⟩
    · rw [hl] at hx
      exact (Extended.finite.inj hx).ge
    · exact (hlow.1 v hx.symm).trans (hlow.2 t ht)
    · exact fun q hq => mul_le_mul_of_nonpos_right (((between_iff hw).mp hq).1 v hx.symm) hc.le
  · obtain rfl : x = freeValue l t := hx
    obtain ⟨v, hv, hbet⟩ := between_freeValue hw
    exact ⟨v, hv, hbet, by simp⟩
  · obtain ⟨v, rfl⟩ := Extended.isFinite_iff.mp (hfin hc.ne')
    rw [if_neg hc.ne', if_pos hc] at hx
    refine ⟨v, Extended.toFinite_finite v,
      (between_iff hw).mpr ⟨fun l hl => ?_, fun t ht => ?_⟩, ?_⟩
    · exact (hlow.1 l hl).trans (hlow.2 v hx.symm)
    · rw [ht] at hx
      exact (Extended.finite.inj hx).le
    · exact fun q hq => mul_le_mul_of_nonneg_right (((between_iff hw).mp hq).2 v hx.symm) hc.le

/-- The entries of the vertex of a box, for coefficients of any kind. -/
theorem boxVertex_entries {g us : List Extended} (h : boxVertex lower upper g = .ok us) :
    us.length = g.length ∧ ∀ i < g.length,
      vertexEntry i (g.getD i 0) (lower.getD i 0) (upper.getD i 0) = .ok (us.getD i 0) := by
  have hall := mapM_eq_ok.mp h
  have hlen : us.length = g.length := by
    rw [← hall.length_eq]
    simp
  refine ⟨hlen, fun i hi => ?_⟩
  have hget := List.forall₂_iff_get.mp hall |>.2 i (by simpa using hi) (by omega)
  simp only [List.get_eq_getElem, List.getElem_zip, List.getElem_range] at hget
  split at hget
  · rename_i l t hl ht
    rw [List.getD_eq_getElem us _ (by omega), List.getD_eq_getElem g _ hi,
      List.getD_eq_getElem?_getD, List.getD_eq_getElem?_getD, hl, ht]
    exact hget
  · cases hget

theorem boxVertex_eq_ok {c : ℕ → ℚ} {us : List Extended}
    (h : boxVertex lower upper (scalars n c) = .ok us) :
    us.length = n ∧ ∀ i < n, vertexEntry i (.finite (c i)) (lower.getD i 0) (upper.getD i 0)
      = .ok (us.getD i 0) := by
  obtain ⟨hlen, hentry⟩ := boxVertex_entries h
  rw [length_scalars] at hlen hentry
  refine ⟨hlen, fun i hi => ?_⟩
  rw [← getD_scalars c hi]
  exact hentry i hi

/-- The vertex of a box is a worst case over it. -/
theorem boxVertex_spec (hw : WithinBounds n lower upper w) {c : ℕ → ℚ} {us : List Extended}
    (h : boxVertex lower upper (scalars n c) = .ok us) :
    ∃ v, us.map Scalar.toFinite = scalars n v ∧ WithinBounds n lower upper v
      ∧ ∀ q, WithinBounds n lower upper q →
        ∑ i ∈ range n, q i * c i ≤ ∑ i ∈ range n, v i * c i := by
  obtain ⟨hlen, hentry⟩ := boxVertex_eq_ok h
  have hv : ∀ i < n, ∃ v, (Scalar.toFinite (us.getD i 0)).rat = v
      ∧ Between (lower.getD i 0) (upper.getD i 0) v
      ∧ ∀ q, Between (lower.getD i 0) (upper.getD i 0) q → q * c i ≤ v * c i := by
    intro i hi
    obtain ⟨v, hv, hbet, hmax⟩ := vertexEntry_spec (hw i hi) (hentry i hi)
    exact ⟨v, by rw [hv, Extended.rat_finite], hbet, hmax⟩
  refine ⟨_, hlen ▸ map_toFinite us, fun i hi => ?_, fun q hq => sum_le_sum fun i hi => ?_⟩
  · obtain ⟨v, rfl, hbet, -⟩ := hv i hi
    exact hbet
  · obtain ⟨v, rfl, -, hmax⟩ := hv i (mem_range.mp hi)
    exact hmax _ (hq i (mem_range.mp hi))

end Polyhedral

end RobustOpt
