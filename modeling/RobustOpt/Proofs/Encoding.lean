import RobustOpt.Proofs.Bilinear
import RobustOpt.Proofs.Master

/-!
# Conditions encoded by constraints

A reformulation replaces a condition on the decision variables by constraints that use auxiliary
variables created for them. Such constraints encode the condition if it follows from them, and if
every point with the condition can be changed on the new variables only so as to satisfy them.

## Main definitions

* `Encodes`: constraints say the same as a condition.
* `Represents`: constraints do, if some of the new columns are nonnegative.
* `Supply.column`, `Supply.after`: the columns a supply hands out, and what it is afterwards.
* `Point.assign`: a point with given values of new columns.

## Main statements

* `Encodes.append`, `Encodes.exists_forM`: conditions are encoded one after the other.
* `Encodes.of_represents`, `Represents.exists_iff`: what represents a condition encodes it, and can
  be satisfied exactly where the condition holds.
* `Encodes.of_satisfied`, `Encodes.exists_satisfied`: what a master asks once the constraints were
  added.
-/

namespace RobustOpt

open Finset

/-- Constraints over the columns created before `stop`, those from `start` on being auxiliary, that
say the same as the condition `C` on the earlier ones. -/
structure Encodes (start stop : ℕ) (cs : List (LinearConstraint Extended)) (C : Point → Prop) :
    Prop where
  le : start ≤ stop
  within : ∀ c ∈ cs, c.Within (·.serial < stop)
  congr : ∀ x y : Point, (∀ d : Column, d.serial < start → x d = y d) → (C x ↔ C y)
  sound : ∀ y : Point, (∀ c ∈ cs, c.Holds y.exact ∧ ∀ d ∈ c.columns, d.Admits (y d)) → C y
  complete : ∀ x, C x → ∃ y : Point, (∀ d : Column, d.serial < start → y d = x d)
    ∧ (∀ d : Column, start ≤ d.serial → d.Admits (y d)) ∧ ∀ c ∈ cs, c.Holds y.exact

/-- Constraints that can be satisfied by auxiliary columns, those from `start` on, exactly where the
condition `C` on the earlier ones holds. Of the auxiliary columns only those of `S` need to be
nonnegative for this. -/
structure Represents (start : ℕ) (S : Column → Prop) (cs : List (LinearConstraint Extended))
    (C : Point → Prop) : Prop where
  signed : ∀ d, S d → start ≤ d.serial ∧ ∀ q, d.Admits q → 0 ≤ q
  congr : ∀ x y : Point, (∀ d : Column, d.serial < start → x d = y d) → (C x ↔ C y)
  sound : ∀ y : Point, (∀ d, S d → 0 ≤ y d) → (∀ c ∈ cs, c.Holds y.exact) → C y
  complete : ∀ x, C x → ∃ y : Point, (∀ d : Column, d.serial < start → y d = x d)
    ∧ (∀ d : Column, start ≤ d.serial → d.Admits (y d)) ∧ ∀ c ∈ cs, c.Holds y.exact

/-! ## New columns -/

/-- The next column of a supply. -/
def Supply.column (s : Supply) (nonneg : Bool) (entry : Option ℕ) : Column :=
  ⟨s.serial, entry, .auxiliary s.auxiliary, nonneg, false⟩

/-- Give values to the next columns of a supply, and zero to all others that are not older. -/
def Point.assign (x : Point) (s : Supply) (nonneg : Bool) (v : Option ℕ → ℚ) : Point := fun d =>
  if d.serial < s.serial then x d else if d = s.column nonneg d.entry then v d.entry else 0

section NewColumns

variable {x : Point} {s : Supply} {b : Bool} {v : Option ℕ → ℚ}

theorem Point.assign_of_lt {d : Column} (h : d.serial < s.serial) : x.assign s b v d = x d :=
  if_pos h

@[simp] theorem Point.assign_column (e : Option ℕ) : x.assign s b v (s.column b e) = v e := by
  simp [Point.assign, Supply.column]

theorem Point.admits_assign (hv : b = true → ∀ e, 0 ≤ v e) {d : Column}
    (h : s.serial ≤ d.serial) : d.Admits (x.assign s b v d) := by
  unfold Point.assign
  rw [if_neg h.not_gt]
  split_ifs with hd
  · refine ⟨fun hn => hv ?_ _, fun hi => ?_⟩
    · rw [hd] at hn
      exact hn
    · rw [hd] at hi
      cases hi
  · exact d.admits_zero

/-- A new vector of a given size. -/
theorem Supply.fresh_some (s : Supply) (n : ℕ) (b : Bool) :
    s.fresh (some n) b = ((List.range n).map fun i => s.column b (some i),
      ⟨s.serial + 1, s.auxiliary + 1⟩) := rfl

/-- The supply after a vector with an entry for each item of a list, if there are items. -/
def Supply.after {β : Type} (s : Supply) (l : List β) : Supply :=
  if l.isEmpty then s else ⟨s.serial + 1, s.auxiliary + 1⟩

/-- A new vector, or none if it would be empty. -/
theorem Supply.fresh_unless_empty {β : Type} (s : Supply) (l : List β) (b : Bool) :
    (if l.isEmpty then ([], s) else s.fresh (some l.length) b)
      = ((List.range l.length).map fun i => s.column b (some i), s.after l) := by
  cases l <;> rfl

theorem Supply.serial_le_after {β : Type} (s : Supply) (l : List β) :
    s.serial ≤ (s.after l).serial := by
  cases l <;> simp [after]

theorem Supply.serial_column_lt {β : Type} (s : Supply) {l : List β} (b : Bool) {i : ℕ}
    (h : i < l.length) : (s.column b (some i)).serial < (s.after l).serial := by
  cases l <;> simp_all [after, column]

end NewColumns

/-- The value of an expression to which multiples of columns were added. -/
theorem Affine.eval_addColumns {e : Affine Extended} {terms : List (Extended × Column)}
    (ht : ∀ t ∈ terms, Scalar.isFinite t.1 = true) {y : Point} {q : ℚ}
    (he : e.eval y.exact = .finite q) :
    (e.addColumns terms).eval y.exact
      = .finite (q + (terms.map fun t => t.1.rat * y t.2).sum) := by
  have hfold : ∀ (ts : List (Extended × Column)), (∀ t ∈ ts, Scalar.isFinite t.1 = true) →
      ∀ (e : Affine Extended) (q : ℚ), e.eval y.exact = .finite q →
        (ts.foldl (fun acc t => Affine.add acc (.scale t.1 (auxiliary t.2))) e).eval y.exact
          = .finite (q + (ts.map fun t => t.1.rat * y t.2).sum) := by
    intro ts
    induction ts with
    | nil => simp
    | cons t ts ih =>
      intro hts e q he
      obtain ⟨a, ha⟩ := Extended.isFinite_iff.mp (hts t (by simp))
      rw [List.foldl_cons, ih (fun u hu => hts u (by simp [hu])) _ (q + a * y t.2)
        (by simp [eval, he, ha, auxiliary])]
      simp [ha, add_assoc]
  rw [addColumns, hfold _ (fun t h => ht t (List.mem_of_mem_filter h)) e q he,
    sum_map_filter _ _ _ fun t _ hz => ?_]
  have hzero : t.1 = 0 := Extended.isZero_iff.mp (by simpa using hz)
  simp [hzero]

theorem Affine.within_addColumns {P : Column → Prop} {e : Affine Extended}
    {terms : List (Extended × Column)} (he : e.Within P) (ht : ∀ t ∈ terms, P t.2) :
    (e.addColumns terms).Within P := by
  have hfold : ∀ (ts : List (Extended × Column)), (∀ t ∈ ts, P t.2) →
      ∀ e : Affine Extended, e.Within P →
        (ts.foldl (fun acc t => Affine.add acc (.scale t.1 (auxiliary t.2))) e).Within P := by
    intro ts
    induction ts with
    | nil => simp
    | cons t ts ih =>
      intro hts e he
      refine ih (fun u hu => hts u (by simp [hu])) _ ?_
      simpa [auxiliary] using ⟨he, hts t (by simp)⟩
  exact hfold _ (fun t h => ht t (List.mem_of_mem_filter h)) e he

/-- Multiples of the columns of a vector, by position. -/
theorem Affine.eval_addColumns_zip {e : Affine Extended} {xs : List Extended}
    (hx : ∀ x ∈ xs, Scalar.isFinite x = true) {K : ℕ} (hK : xs.length = K) (col : ℕ → Column)
    {y : Point} {q : ℚ} (he : e.eval y.exact = .finite q) :
    (e.addColumns (xs.zip ((List.range K).map col))).eval y.exact
      = .finite (q + ∑ k ∈ range K, Extended.coord xs k * y (col k)) := by
  rw [eval_addColumns (fun t ht => hx _ (List.of_mem_zip ht).1) he, sum_eq_sum_range]
  simp only [List.length_map, List.length_zip, List.length_range, hK, min_self]
  congr 2
  refine sum_congr rfl fun k hk => ?_
  have hk' : k < K := mem_range.mp hk
  rw [List.getD_eq_getElem _ _ (by simp [hK, hk']), Extended.coord,
    List.getD_eq_getElem _ _ (hK ▸ hk')]
  simp

/-! ## Encodings -/

namespace Encodes

variable {start mid stop : ℕ} {cs ds : List (LinearConstraint Extended)} {C D : Point → Prop}

theorem mono_congr (h : Encodes start stop cs C) (hCD : ∀ x, C x ↔ D x) :
    Encodes start stop cs D where
  le := h.le
  within := h.within
  congr x y hxy := by rw [← hCD, ← hCD, h.congr x y hxy]
  sound y hy := (hCD y).mp (h.sound y hy)
  complete x hx := h.complete x ((hCD x).mpr hx)

/-- It is enough to read off the condition at points that give every auxiliary column a value it
admits: a column that does not occur may take any value. -/
theorem of_admitted (le : start ≤ stop) (within : ∀ c ∈ cs, c.Within (·.serial < stop))
    (congr : ∀ x y : Point, (∀ d : Column, d.serial < start → x d = y d) → (C x ↔ C y))
    (sound : ∀ y : Point, (∀ c ∈ cs, c.Holds y.exact) →
      (∀ d : Column, start ≤ d.serial → d.Admits (y d)) → C y)
    (complete : ∀ x, C x → ∃ y : Point, (∀ d : Column, d.serial < start → y d = x d)
      ∧ (∀ d : Column, start ≤ d.serial → d.Admits (y d)) ∧ ∀ c ∈ cs, c.Holds y.exact) :
    Encodes start stop cs C where
  le := le
  within := within
  congr := congr
  complete := complete
  sound y hy := by
    classical
    let z : Point := fun d => if d.serial < start ∨ ∃ c ∈ cs, d ∈ c.columns then y d else 0
    have hz : ∀ d : Column, d.serial < start → z d = y d := fun d hd => if_pos (.inl hd)
    refine (congr z y hz).mp (sound z (fun c hc => ?_) fun d hd => ?_)
    · refine (LinearConstraint.holds_congr ?_).mpr (hy c hc).1
      rw [LinearConstraint.within_iff_columns]
      intro d hd
      simp [z, if_pos (Or.inr ⟨c, hc, hd⟩ : d.serial < start ∨ ∃ c ∈ cs, d ∈ c.columns)]
    · dsimp only [z]
      split_ifs with h
      · obtain ⟨c, hc, hdc⟩ := h.resolve_left hd.not_gt
        exact (hy c hc).2 d hdc
      · exact d.admits_zero

theorem nil (start : ℕ) : Encodes start start [] fun _ => True where
  le := le_rfl
  within := by simp
  congr := by simp
  sound := by simp
  complete x _ := by
    refine ⟨fun d => if d.serial < start then x d else 0, fun d hd => if_pos hd, fun d hd => ?_,
      by simp⟩
    simpa [hd.not_gt] using d.admits_zero

/-- Two conditions, the second encoded with columns created after those of the first. -/
theorem append (hc : Encodes start mid cs C) (hd : Encodes mid stop ds D)
    (hD : ∀ x y : Point, (∀ d : Column, d.serial < start → x d = y d) → (D x ↔ D y)) :
    Encodes start stop (cs ++ ds) fun x => C x ∧ D x where
  le := hc.le.trans hd.le
  within c hcd := by
    rcases List.mem_append.mp hcd with h | h
    · exact (hc.within c h).mono fun d hlt => hlt.trans_le hd.le
    · exact hd.within c h
  congr x y hxy := and_congr (hc.congr x y hxy) (hD x y hxy)
  sound y hy := ⟨hc.sound y fun c h => hy c (List.mem_append_left _ h),
    hd.sound y fun c h => hy c (List.mem_append_right _ h)⟩
  complete x hx := by
    obtain ⟨y, hyx, hyadm, hyc⟩ := hc.complete x hx.1
    obtain ⟨z, hzy, hzadm, hzd⟩ := hd.complete y ((hD y x hyx).mpr hx.2)
    refine ⟨z, fun d h => (hzy d (h.trans_le hc.le)).trans (hyx d h), fun d h => ?_, fun c h => ?_⟩
    · rcases lt_or_ge d.serial mid with hlt | hge
      · rw [hzy d hlt]
        exact hyadm d h
      · exact hzadm d hge
    · rcases List.mem_append.mp h with h | h
      · refine (LinearConstraint.holds_congr ((hc.within c h).mono fun d hlt => ?_)).mpr (hyc c h)
        simp [hzy d hlt]
      · exact hzd c h

/-- A constraint without auxiliary columns encodes what it says. -/
theorem singleton {c : LinearConstraint Extended} (hw : c.Within (·.serial < start))
    (hC : ∀ y : Point, c.Holds y.exact ↔ C y) : Encodes start start [c] C where
  le := le_rfl
  within := by simpa using hw
  congr x y hxy := by
    rw [← hC, ← hC]
    exact LinearConstraint.holds_congr (hw.mono fun d hd => by simp [hxy d hd])
  sound y hy := (hC y).mp (hy c (by simp)).1
  complete x hx := by
    obtain ⟨y, hyx, hadm, -⟩ := (nil start).complete x trivial
    refine ⟨y, hyx, hadm, ?_⟩
    simp only [List.mem_singleton, forall_eq]
    exact (LinearConstraint.holds_congr (hw.mono fun d hd => by simp [hyx d hd])).mpr
      ((hC x).mpr hx)

/-- Constraints that represent a condition encode it. -/
theorem of_represents {S : Column → Prop} (h : Represents start S cs C) (le : start ≤ stop)
    (within : ∀ c ∈ cs, c.Within (·.serial < stop)) : Encodes start stop cs C := by
  refine of_admitted le within h.congr (fun y hcs hadm => h.sound y (fun d hd => ?_) hcs) h.complete
  obtain ⟨hstart, hnonneg⟩ := h.signed d hd
  exact hnonneg _ (hadm d hstart)

/-- A loop over a master encodes all of its conditions, if every step adds constraints that encode
one of them. -/
theorem exists_forM {β : Type} {f : β → Action (Master Extended × Supply) (Fault Extended) Unit}
    {l : List β} {C : β → Point → Prop} (m : Master Extended) (supply : Supply)
    (hC : ∀ b, ∀ x y : Point, (∀ d : Column, d.serial < supply.serial → x d = y d) →
      (C b x ↔ C b y))
    (step : ∀ b ∈ l, ∀ (m : Master Extended) (s : Supply), supply.serial ≤ s.serial →
      ∃ cs next, (f b).Yields (m, s) ⟨⟩ (m.addConstraints cs, next)
        ∧ Encodes s.serial next.serial cs (C b)) :
    ∃ cs next, (l.forM f).Yields (m, supply) ⟨⟩ (m.addConstraints cs, next)
      ∧ Encodes supply.serial next.serial cs fun y => ∀ b ∈ l, C b y := by
  obtain ⟨⟨m', next⟩, hy, cs, hm, henc⟩ := Action.exists_yields_forM
    (f := f) (l := l) (s := (m, supply))
    (fun done t => ∃ cs, t.1 = m.addConstraints cs
      ∧ Encodes supply.serial t.2.serial cs fun y => ∀ b ∈ done, C b y)
    ⟨[], by simp, (nil supply.serial).mono_congr (by simp)⟩
    (by
      rintro done b ⟨m', s⟩ hinit ⟨cs, hm, henc⟩
      obtain ⟨cs', next, hy, henc'⟩ := step b (hinit.subset (by simp)) m' s henc.le
      refine ⟨(m'.addConstraints cs', next), hy, cs ++ cs', ?_, ?_⟩
      · simp [show m' = m.addConstraints cs from hm]
      · refine (henc.append henc' (hC b)).mono_congr fun y => ?_
        simp [or_imp, forall_and])
  obtain rfl : m' = m.addConstraints cs := hm
  exact ⟨cs, next, hy, henc⟩

/-- A point of the enlarged master satisfies the condition. -/
theorem of_satisfied {m : Master Extended} (h : Encodes start stop cs C) {y : Point}
    (hy : (m.addConstraints cs).Satisfied y) : m.Satisfied y ∧ C y := by
  obtain ⟨hm, hcs⟩ := Master.satisfied_addConstraints.mp hy
  exact ⟨hm, h.sound y hcs⟩

/-- A point of the master with the condition extends to one of the enlarged master. -/
theorem exists_satisfied {m : Master Extended} (h : Encodes start stop cs C)
    (hm : ∀ d ∈ m.columns, d.serial < start) {x : Point} (hx : m.Satisfied x) (hC : C x)
    (hadm : ∀ c ∈ cs, ∀ d ∈ c.columns, d.serial < start → d.Admits (x d)) :
    ∃ y : Point, (∀ d, d.serial < start → y d = x d) ∧ (m.addConstraints cs).Satisfied y := by
  obtain ⟨y, hyx, hyadm, hcs⟩ := h.complete x hC
  refine ⟨y, hyx, Master.satisfied_addConstraints.mpr ⟨?_, fun c hc => ⟨hcs c hc, fun d hd => ?_⟩⟩⟩
  · exact (Master.satisfied_congr fun d hd => hyx d (hm d hd)).mpr hx
  · rcases lt_or_ge d.serial start with hlt | hge
    · rw [hyx d hlt]
      exact hadm c hc d hd hlt
    · exact hyadm d hge

end Encodes

/-- Whatever the values of the earlier columns are, there are values of the auxiliary ones, of which
those of `S` are nonnegative, exactly where the condition holds. -/
theorem Represents.exists_iff {start : ℕ} {S : Column → Prop}
    {cs : List (LinearConstraint Extended)} {C : Point → Prop} (h : Represents start S cs C)
    (x : Point) :
    (∃ y : Point, (∀ d : Column, d.serial < start → y d = x d) ∧ (∀ d, S d → 0 ≤ y d)
      ∧ ∀ c ∈ cs, c.Holds y.exact) ↔ C x := by
  constructor
  · rintro ⟨y, hyx, hnonneg, hcs⟩
    exact (h.congr y x hyx).mp (h.sound y hnonneg hcs)
  · intro hx
    obtain ⟨y, hyx, hadm, hcs⟩ := h.complete x hx
    refine ⟨y, hyx, fun d hd => ?_, hcs⟩
    obtain ⟨hstart, hnonneg⟩ := h.signed d hd
    exact hnonneg _ (hadm d hstart)

end RobustOpt
