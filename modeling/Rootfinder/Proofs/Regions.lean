import Rootfinder.Proofs.FiniteValues

namespace Rootfinder.TrustRegion

open Exact Iteration

variable {n : ℕ}

/-- Parameters that are accepted, in numbers without rounding. -/
structure Tuning where
  step : ℝ
  shrink : ℝ
  expand : ℝ
  shrinkFactor : ℝ
  expandFactor : ℝ
  times : ℕ
  shrinkFactor_pos : 0 < shrinkFactor
  shrinkFactor_lt_one : shrinkFactor < 1
  one_lt_expandFactor : 1 < expandFactor
  times_pos : 0 < times

def Tuning.params (t : Tuning) : Params Exact where
  stepThreshold := .value (real t.step)
  shrinkThreshold := .value (real t.shrink)
  expandThreshold := .value (real t.expand)
  shrinkFactor := real t.shrinkFactor
  expandFactor := .ok (real t.expandFactor)
  maxShrinkTimes := some t.times

variable {scheme : Scheme} {t : Tuning} {l : Linearization Exact} {o : Options Exact}
  {y x : Iteration Exact n (Memory Exact n)}

section Bounds

theorem one_div_ofNat_pow (k : ℕ) :
    (1.0 / Scalar.ofNat (Nat.pow 2 k) : Exact) = real (1 / 2 ^ k) := by
  have hrat : (OfScientific.ofScientific (Nat.pow 2 k) false 0 : ℚ) = (Nat.pow 2 k : ℕ) := by
    change Rat.ofScientific (Nat.pow 2 k) false 0 = _
    rw [Rat.ofScientific_false_def]
    simp
  have hpower : ((Nat.pow 2 k : ℕ) : ℝ) = 2 ^ k := Nat.cast_pow 2 k
  rw [Scalar.ofNat, ofScientific_eq _ false, ← Rat.cast_ofScientific, hrat, Rat.cast_natCast,
    hpower, one_eq, div_real _ (by positivity)]

theorem tiny_eq : (Scalar.tiny : Exact) = real (1 / 2 ^ 1022) := by
  unfold Scalar.tiny
  generalize 1022 = k
  exact one_div_ofNat_pow k

theorem fanRadius_vec (mu : ℝ) (F : EuclideanSpace ℝ (Fin n)) : fanRadius (real mu) (vec F) =
    real (max (mu * ‖F‖ ^ (0.99 : ℝ)) (1 / 2 ^ 1022)) := by
  have hpow : Scalar.pow (real ‖F‖) (0.99 : Exact) = real (‖F‖ ^ (0.99 : ℝ)) := by
    rw [ofScientific_eq, pow_real (norm_nonneg F) (by norm_num)]
  rw [fanRadius, euclid_vec, hpow, mul_real, tiny_eq, larger_real]

theorem fanRadius_pos (mu : ℝ) (F : EuclideanSpace ℝ (Fin n)) :
    ∃ r, fanRadius (real mu) (vec F) = real r ∧ 0 < r :=
  ⟨_, fanRadius_vec mu F, lt_max_of_lt_right (by positivity)⟩

/-- The greatest of finite components is one of them, unless there are none. -/
theorem greatest_vec (v : EuclideanSpace ℝ (Fin n)) :
    (vec v).greatest = infinite true ∨ ∃ x, (vec v).greatest = real x := by
  rw [Vec.greatest, ← Vector.foldl_toList, toList_vec]
  generalize hc : -(Scalar.infinity : Exact) = c
  replace hc : c = infinite true ∨ ∃ x, c = real x := .inl hc.symm
  induction List.ofFn v generalizing c with
  | nil => exact hc
  | cons x xs ih =>
    refine ih _ ?_
    rcases hc with rfl | ⟨y, rfl⟩
    · exact .inr ⟨x, if_pos rfl⟩
    · exact .inr ⟨max y x, larger_real y x⟩

theorem least_vec (v : EuclideanSpace ℝ (Fin n)) :
    (vec v).least = infinite false ∨ ∃ x, (vec v).least = real x := by
  rw [Vec.least, ← Vector.foldl_toList, toList_vec]
  generalize hc : (Scalar.infinity : Exact) = c
  replace hc : c = infinite false ∨ ∃ x, c = real x := .inl hc.symm
  induction List.ofFn v generalizing c with
  | nil => exact hc
  | cons x xs ih =>
    refine ih _ ?_
    rcases hc with rfl | ⟨y, rfl⟩
    · exact .inr ⟨x, if_pos rfl⟩
    · exact .inr ⟨min y x, smaller_real y x⟩

theorem simpleMaxRadius_vec (v F : EuclideanSpace ℝ (Fin n)) :
    ∃ R : ℝ, simpleMaxRadius (vec v) (vec F) = real R ∧ 1 ≤ R := by
  have hspan : (vec v).greatest - (vec v).least = infinite true ∨
      ∃ x, (vec v).greatest - (vec v).least = real x := by
    rcases greatest_vec v with ha | ⟨a, ha⟩ <;> rcases least_vec v with hb | ⟨b, hb⟩ <;> rw [ha, hb]
    · exact .inl rfl
    · exact .inl rfl
    · exact .inl rfl
    · exact .inr ⟨a - b, sub_real a b⟩
  rcases hspan with h | ⟨x, h⟩
  · refine ⟨max ‖F‖ 1, ?_, le_max_right _ _⟩
    have hlow : Scalar.larger (real ‖F‖) (infinite true) = real ‖F‖ := if_neg nofun
    rw [simpleMaxRadius, euclid_vec, h, hlow, one_eq, larger_real]
  · refine ⟨max (max ‖F‖ x) 1, ?_, le_max_right _ _⟩
    rw [simpleMaxRadius, euclid_vec, h, larger_real, one_eq, larger_real]

/-- The bounds that the rules keep a region to. -/
structure Bounded (scheme : Scheme) (m : Region Exact) : Prop where
  radius : ∃ r : ℝ, m.radius = real r ∧ 0 < r
  simple : scheme = .simple → ∃ r R : ℝ, m.radius = real r ∧ m.maxRadius = real R ∧ r ≤ R ∧ 1 ≤ R
  fan : scheme = .fan → ∃ mu : ℝ, m.mu = real mu ∧ 0 < mu ∧ mu ≤ 10 ^ 8

variable {m m' : Region Exact}

theorem Bounded.counted (h : Bounded scheme m) (t : Tuning) (shrinks : Bool) :
    Bounded scheme (counted scheme t.params shrinks m) := by
  have hc := t.shrinkFactor_pos
  have hle := t.shrinkFactor_lt_one.le
  cases shrinks with
  | false => exact ⟨h.radius, h.simple, h.fan⟩
  | true =>
    obtain ⟨r, hr, hpos⟩ := h.radius
    have hsmaller : ∀ {x : Exact} {r : ℝ}, x = real r →
        x * t.params.shrinkFactor = real (r * t.shrinkFactor) := by
      rintro _ r rfl
      rfl
    cases scheme with
    | fan =>
      refine ⟨h.radius, nofun, fun _ => ?_⟩
      obtain ⟨mu, hmu, hmu0, hmu8⟩ := h.fan rfl
      exact ⟨mu * t.shrinkFactor, hsmaller hmu, mul_pos hmu0 hc,
        (mul_le_of_le_one_right hmu0.le hle).trans hmu8⟩
    | simple =>
      refine ⟨⟨_, hsmaller hr, mul_pos hpos hc⟩, fun _ => ?_, nofun⟩
      obtain ⟨r', R, hr', hR, hle', h1⟩ := h.simple rfl
      obtain rfl := real.inj (hr.symm.trans hr')
      exact ⟨_, R, hsmaller hr, hR, (mul_le_of_le_one_right hpos.le hle).trans hle', h1⟩
    | nlsolve => exact ⟨⟨_, hsmaller hr, mul_pos hpos hc⟩, nofun, nofun⟩
    | bastin => exact ⟨⟨_, hsmaller hr, mul_pos hpos hc⟩, nofun, nofun⟩

/-- No rule leaves the bounds, if only a step that is not zero has a ratio above a number. -/
theorem Bounded.resizes (h : Bounded scheme m) {rho : Exact} {size : ℝ}
    {shrinks accepted : Bool}
    (hr : Resizes t.params rho (real size) scheme shrinks accepted m m')
    (hsize : ∀ x : ℝ, real x ≤ rho → 0 < size) : Bounded scheme m' := by
  have hc := t.shrinkFactor_pos
  have he := t.one_lt_expandFactor
  obtain ⟨r, hradius, hpos⟩ := h.radius
  have hfactor : ∀ {factor : Exact}, t.params.expandFactor = .ok factor →
      factor = real t.expandFactor := fun h => (Except.ok.inj h).symm
  have hlarger : ∀ {x : ℝ}, ∃ r' : ℝ, Scalar.larger m.radius (real x) = real r' ∧ 0 < r' :=
    fun {x} => ⟨max r x, by rw [hradius, larger_real], lt_max_of_lt_left hpos⟩
  cases hr with
  | stays => exact h
  | simple _ hf _ =>
    obtain ⟨r', R, hr', hR, hle, h1⟩ := h.simple rfl
    obtain rfl := real.inj (hradius.symm.trans hr')
    obtain rfl := hfactor hf
    have hmin : Scalar.smaller (real t.expandFactor * m.radius) m.maxRadius =
        real (min (t.expandFactor * r) R) := by rw [hradius, hR, mul_real, smaller_real]
    have hmin0 : 0 < min (t.expandFactor * r) R := lt_min (by positivity) (by linarith)
    exact ⟨⟨_, hmin, hmin0⟩, fun _ => ⟨_, R, hmin, hR, min_le_right _ _, h1⟩, nofun⟩
  | nlsolve _ hf hrho =>
    obtain rfl := hfactor hf
    have hsize := hsize t.expand (of_decide_eq_true (Except.ok.inj hrho))
    exact ⟨⟨_, mul_real _ _, by positivity⟩, nofun, nofun⟩
  | nlsolveFair _ hf _ =>
    obtain rfl := hfactor hf
    exact ⟨by rw [mul_real]; exact hlarger, nofun, nofun⟩
  | fan _ hf _ =>
    obtain rfl := hfactor hf
    refine ⟨h.radius, nofun, fun _ => ?_⟩
    obtain ⟨mu, hmu, hmu0, hmu8⟩ := h.fan rfl
    refine ⟨min (t.expandFactor * mu) (10 ^ 8), ?_, lt_min (by positivity) (by norm_num),
      min_le_right _ _⟩
    have hmost : (1e8 : Exact) = real (10 ^ 8) := by rw [ofScientific_eq]; norm_num
    rw [hmu, mul_real, hmost, smaller_real]
  | bastin _ hf =>
    obtain rfl := hfactor hf
    refine ⟨⟨max (t.expandFactor * size) r, ?_, lt_max_of_lt_right hpos⟩, nofun, nofun⟩
    rw [hradius, mul_real, larger_real]
  | bastinBack =>
    refine ⟨⟨max (t.shrinkFactor * r) (1 / 2 ^ 1022), ?_, lt_max_of_lt_left (by positivity)⟩,
      nofun, nofun⟩
    rw [hradius, tiny_eq]
    exact larger_real _ _

theorem Bounded.placed (h : Bounded scheme m) (F : EuclideanSpace ℝ (Fin n)) :
    Bounded scheme (placed scheme (vec F) m) := by
  cases scheme with
  | fan =>
    obtain ⟨mu, hmu, hbounds⟩ := h.fan rfl
    obtain ⟨r, hr, hpos⟩ := fanRadius_pos mu F
    exact ⟨⟨r, (congrArg (fanRadius · (vec F)) hmu).trans hr, hpos⟩, nofun,
      fun _ => ⟨mu, hmu, hbounds⟩⟩
  | simple => exact h
  | nlsolve => exact h
  | bastin => exact h

/-- A fresh region is within its bounds. -/
theorem bounded_fresh (v F : EuclideanSpace ℝ (Fin n)) :
    Bounded scheme (fresh scheme (vec v) (vec F)).region := by
  cases scheme with
  | simple =>
    obtain ⟨R, hR, h1⟩ := simpleMaxRadius_vec v F
    have heleven : (11.0 : Exact) = real 11 := by rw [ofScientific_eq]; norm_num
    have hr : simpleMaxRadius (vec v) (vec F) / 11.0 = real (R / 11) := by
      rw [hR, heleven, div_real _ (by norm_num)]
    exact ⟨⟨_, hr, by linarith⟩, fun _ => ⟨_, R, hr, hR, by linarith, h1⟩, nofun⟩
  | nlsolve =>
    have hten : (10.0 : Exact) = real 10 := by rw [ofScientific_eq]; norm_num
    refine ⟨?_, nofun, nofun⟩
    simp only [fresh, Memory.region, euclid_vec, zero_eq, beq_real, decide_eq_true_eq]
    by_cases hv : ‖v‖ = 0
    · rw [if_pos hv, one_eq]
      exact ⟨1, rfl, one_pos⟩
    · rw [if_neg hv, hten]
      exact ⟨10 * ‖v‖, rfl, by positivity⟩
  | bastin => exact ⟨⟨1, one_eq, one_pos⟩, nofun, nofun⟩
  | fan =>
    obtain ⟨r, hr, hpos⟩ := fanRadius_pos 1 F
    exact ⟨⟨r, (congrArg (fanRadius · (vec F)) one_eq).trans hr, hpos⟩, nofun,
      fun _ => ⟨1, one_eq, one_pos, by norm_num⟩⟩

/-- A ratio above a number was computed, so that a reduction is predicted for the step; it is not
zero. -/
theorem size_pos {A : Matrix (Fin n) (Fin n) ℝ} {F v : EuclideanSpace ℝ (Fin n)}
    {r : Vec Exact n} {x : ℝ} (h : real x ≤ reductionRatio (mat A) (vec F) (vec v) r) :
    0 < ‖v‖ := by
  rw [norm_pos_iff]
  rintro rfl
  simp only [reductionRatio, predicted_real, sub_self, zero_eq, lt_real, lt_irrefl, decide_false,
    Bool.false_and, Bool.false_eq_true, if_false] at h
  cases h

end Bounds

section Steps

/-- What is finite, coupled, and bounded in every state of a run. -/
structure Sound (scheme : Scheme) (l : Linearization Exact)
    (it : Iteration Exact n (Memory Exact n)) : Prop extends Whole l it where
  coupled : Coupled scheme it
  bounded : Bounded scheme it.memory.region

/-- Every step that is found is finite. -/
theorem Finds.finite {J : Mat Exact n n} {s : Vec Exact n} (h : Finds l y J s)
    (hy : Sound scheme l y) : ∃ A v, J = mat A ∧ s = vec v := by
  obtain ⟨z, z', hJ, hs⟩ := h
  obtain ⟨A, rfl⟩ := allFinite_mat_iff.mp (hJ.wp_iff.mp (wp_jacobian_whole hy.toWhole)).1
  have hz : Prepared y z := hJ.wp_iff.mp (blind_prepared.keeps_jacobian.wp ⟨.refl y, rfl⟩)
  obtain ⟨F, hF⟩ := allFinite_iff.mp hy.fu
  obtain ⟨r, hr, hpos⟩ := hy.bounded.radius
  have hradius : z.memory.radius = real r := (congrArg Region.radius hz.region).trans hr
  obtain ⟨-, v, rfl, -⟩ := hs.wp_iff.mp (search_way A F hpos (hz.fu.trans hF) hradius)
  exact ⟨A, v, rfl, rfl⟩

/-- Every step makes a trial. -/
theorem Turn.tried (h : Turn scheme t.params l y x) (hy : Sound scheme l y) :
    ∃ J s r shrinks accepted m, ∃ size : ℝ, Tries l y J s r ∧
      Rules scheme t.params (reductionRatio J y.fu s r) (real size) shrinks accepted
        y.memory.region m ∧
      (∀ c : ℝ, real c ≤ reductionRatio J y.fu s r → 0 < size) ∧
      x.memory.region = placed scheme x.fu m ∧
      if t.times < m.shrinks then x.stopped = true ∧ x.code = .shrinkThresholdExceeded
        else x.stopped = y.stopped ∧ x.code = y.code := by
  cases h with
  | strays hf hs _ _ _ _ =>
    obtain ⟨-, v, -, rfl⟩ := hf.finite hy
    rw [allFinite_vec] at hs
    cases hs
  | @tries J s r shrinks accepted m ht hr hu hfu hm hend =>
    obtain ⟨A, v, rfl, rfl⟩ := ht.found.finite hy
    obtain ⟨F, hF⟩ := allFinite_iff.mp hy.fu
    rw [euclid_vec] at hr
    simp only [Tuning.params, Option.any_some, decide_eq_true_eq] at hend
    refine ⟨_, _, r, shrinks, accepted, m, ‖v‖, ht, hr, fun c hc => ?_, hm, hend⟩
    rw [hF] at hc
    exact size_pos hc

theorem Turn.sound (h : Turn scheme t.params l y x) (hx : Whole l x) (hy : Sound scheme l y) :
    Sound scheme l x := by
  obtain ⟨J, s, r, shrinks, accepted, m, size, -, hr, hsize, hm, -⟩ := h.tried hy
  obtain ⟨F, hF⟩ := allFinite_iff.mp hx.fu
  refine ⟨hx, h.coupled hy.coupled, ?_⟩
  rw [hm, hF]
  exact ((hy.bounded.counted t shrinks).resizes hr.resizes hsize).placed F

/-- The step from a state shrinks the region: the ratio of its trial lies below the bound for that,
or, under Bastin's rule, its trial is rejected. -/
def Shrinks (scheme : Scheme) (prm : Params Exact) (l : Linearization Exact)
    (y : Iteration Exact n (Memory Exact n)) : Prop :=
  ∃ J s r accepted, Tries l y J s r ∧
    Judges scheme prm (reductionRatio J y.fu s r) true accepted

/-- What shrinking does: the radius, or Fan's `mu`, is multiplied by the shrink factor. Under the
simple rule an accepted trial may expand the smaller region again, if the bound for that is the lower
one. -/
def Scaled (scheme : Scheme) (t : Tuning) (m m' : Region Exact) : Prop :=
  match scheme with
  | .fan => m'.mu = m.mu * real t.shrinkFactor
  | .simple => m'.radius = m.radius * real t.shrinkFactor ∨ t.expand < t.shrink ∧
      m'.radius =
        Scalar.smaller (real t.expandFactor * (m.radius * real t.shrinkFactor)) m.maxRadius
  | _ => m'.radius = m.radius * real t.shrinkFactor

section Counting

variable {rho size : Exact} {shrinks accepted : Bool} {m m' : Region Exact}

theorem Resizes.shrinks_eq {prm : Params Exact}
    (h : Resizes prm rho size scheme shrinks accepted m m') : m'.shrinks = m.shrinks := by
  cases h <;> rfl

theorem counted_shrinks {prm : Params Exact} : (counted scheme prm shrinks m).shrinks =
    if shrinks then m.shrinks + 1 else 0 := by
  cases shrinks <;> cases scheme <;> rfl

/-- A ratio below a number is not above a greater one. -/
theorem lt_of_between {a b : ℝ} (ha : real a < rho) (hb : rho < real b) : a < b := by
  cases rho with
  | real x => exact lt_trans ha hb
  | infinite s => exact absurd (ha.symm.trans hb) Bool.false_ne_true
  | undefined => exact ha.elim

theorem Rules.scaled (h : Rules scheme t.params rho size true accepted m m')
    (fu : Vec Exact n) : Scaled scheme t m (placed scheme fu m') := by
  obtain ⟨hj, hr⟩ := h
  cases hr with
  | stays => cases scheme <;> first | exact .inl rfl | rfl
  | simple _ hf hrho =>
    obtain rfl := Except.ok.inj hf
    have hbelow : rho < real t.shrink := of_decide_eq_true (Except.ok.inj hj.1)
    have habove : real t.expand < rho := of_decide_eq_true (Except.ok.inj hrho)
    exact .inr ⟨lt_of_between habove hbelow, rfl⟩

end Counting

/-- A shrinking step is counted; any other ends the row. -/
theorem Turn.counts (h : Turn scheme t.params l y x) (hy : Sound scheme l y) :
    Shrinks scheme t.params l y ∧ x.memory.shrinks = y.memory.shrinks + 1 ∧
        Scaled scheme t y.memory.region x.memory.region ∨
      ¬ Shrinks scheme t.params l y ∧ x.memory.shrinks = 0 := by
  obtain ⟨J, s, r, shrinks, accepted, m, size, ht, hr, -, hm, -⟩ := h.tried hy
  have hcount : x.memory.shrinks = if shrinks then y.memory.shrinks + 1 else 0 := by
    have hx := congrArg Region.shrinks hm
    rw [placed_shrinks, hr.resizes.shrinks_eq, counted_shrinks] at hx
    exact hx
  cases shrinks with
  | true => exact .inl ⟨⟨J, s, r, accepted, ht, hr.judges⟩, hcount, hm ▸ hr.scaled x.fu⟩
  | false =>
    refine .inr ⟨?_, hcount⟩
    rintro ⟨J', s', r', accepted', ht', hj'⟩
    obtain ⟨rfl, rfl, rfl⟩ := ht.unique ht'
    exact absurd (hr.judges.unique hj').1 Bool.false_ne_true

/-- The count stays within the limit, or is one beyond it, which is what the code says. -/
def Tallied (t : Tuning) (it : Iteration Exact n (Memory Exact n)) : Prop :=
  it.memory.shrinks ≤ t.times + 1 ∧
    (it.memory.shrinks = t.times + 1 ↔ it.code = .shrinkThresholdExceeded)

theorem Turn.tallied (h : Turn scheme t.params l y x) (hy : Sound scheme l y)
    (hrun : y.code = .default) (hty : Tallied t y) : Tallied t x := by
  obtain ⟨J, s, r, shrinks, accepted, m, size, -, hr, -, hm, hend⟩ := h.tried hy
  have hx : x.memory.shrinks = m.shrinks :=
    (congrArg Region.shrinks hm).trans (placed_shrinks x.fu m)
  have hwithin : y.memory.shrinks ≠ t.times + 1 := fun he => by
    have := hty.2.mp he
    rw [hrun] at this
    cases this
  have hle : x.memory.shrinks ≤ y.memory.shrinks + 1 := by
    rcases h.counts hy with ⟨-, hc, -⟩ | ⟨-, hc⟩ <;> omega
  have hmost := hty.1
  refine ⟨by omega, ?_⟩
  rw [hx] at hle ⊢
  split at hend
  · exact iff_of_true (by omega) hend.2
  · refine iff_of_false (by omega) ?_
    rw [hend.2, hrun]
    nofun

end Steps

end Rootfinder.TrustRegion
