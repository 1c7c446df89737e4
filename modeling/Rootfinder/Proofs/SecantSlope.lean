import Rootfinder.Proofs.InverseEstimate

namespace Rootfinder.Secant

open Exact Iteration
open TrustRegion (single apply_single)

section Steps

variable {d f a b : ℝ} {fu : Vec Exact 1}

/-- Only a finite residual leads to a finite step of Klement's method. -/
theorem residual_of_delta (h : (Klement.delta (vec (single d)) fu).allFinite = true) :
    ∃ f, fu = vec (single f) := by
  have hentry : Scalar.isFinite (-fu[0] / real d) = true := by
    have hat := Vector.all_eq_true.mp h 0 Nat.one_pos
    simpa [Klement.delta, single] using hat
  cases hfu : fu[0] with
  | real f => exact ⟨f, eq_vec_single hfu⟩
  | infinite s =>
    rw [hfu] at hentry
    cases hentry
  | undefined =>
    rw [hfu] at hentry
    cases hentry

theorem mul_single (a b : ℝ) : Vector.zipWith (· * ·) (vec (single a)) (vec (single b)) =
    vec (single (a * b)) :=
  eq_vec_single (by simp [Vector.get_eq_getElem, single])

theorem klement_delta_single (hd : d ≠ 0) :
    Klement.delta (vec (single d)) (vec (single f)) = vec (single (-(d⁻¹ * f))) := by
  have hquotient : -f / d = -(d⁻¹ * f) := by
    field_simp
  rw [← hquotient]
  exact eq_vec_single (by simp [Vector.get_eq_getElem, Klement.delta, single, div_real _ hd])

theorem broyden_delta_single :
    Broyden.delta (mat !![d⁻¹]) (vec (single f)) = vec (single (-(d⁻¹ * f))) := by
  rw [Broyden.delta, mulVec_mat, apply_single, neg_vec, neg_single]

/-- In one dimension Klement's update is the slope of the secant. -/
theorem klement_updated_single {K : Vec Exact 1} (hd : d ≠ 0) (ha : a ≠ 0)
    (h : Klement.updated (vec (single d)) (vec (single a)) (vec (single b)) = some K) :
    K = vec (single (b / a)) := by
  have hsquare : (vec (single d)).map (fun x => x * x) = vec (single (d * d)) :=
    eq_vec_single (by simp [Vector.get_eq_getElem, single])
  have hdenom : d * d * a * a ≠ 0 := by
    simp [hd, ha]
  have hslope : d + (d * d * a * a)⁻¹ * ((b - d * a) * (d * d * a)) = b / a := by
    field_simp
    ring
  simp only [Klement.updated] at h
  split at h
  · cases h
  · rw [hsquare, mul_single, mul_single, dot_single, sub_vec, sub_single, mul_single,
      divide_vec _ hdenom, smul_single, add_vec, add_single, hslope] at h
    exact (Option.some.inj h).symm

theorem greatest_single : (vec (single a)).greatest = real a := by
  rw [Vec.greatest, ← Vector.foldl_toList, toList_vec]
  change Scalar.larger (-Scalar.infinity) (real a) = _
  exact if_pos rfl

/-- Klement's update is made unless the step or the estimate is zero. -/
theorem exists_klement_updated_single (hd : d ≠ 0) (ha : a ≠ 0) : ∃ K,
    Klement.updated (vec (single d)) (vec (single a)) (vec (single b)) = some K := by
  have hsquare : (vec (single d)).map (fun x => x * x) = vec (single (d * d)) :=
    eq_vec_single (by simp [Vector.get_eq_getElem, single])
  refine ⟨_, if_neg ?_⟩
  rw [hsquare, mul_single, dot_single, dot_single, greatest_single, epsilon_eq]
  have hpos : 0 < d * d * (a * a) := mul_pos (mul_self_pos.mpr hd) (mul_self_pos.mpr ha)
  simp only [Bool.or_eq_true, not_or]
  refine ⟨by simp, fun h => ?_⟩
  have hle : d * d * a * a ≤ 1 / 2 ^ 52 * (d * d) * (a * a) := of_decide_eq_true h
  nlinarith

theorem degenerate_one : Klement.degenerate (vec (single 1)) = false := by
  have hlarge : ¬ Scalar.abs (real 1) ≤ (Scalar.epsilon : Exact) := by
    rw [epsilon_eq]
    change ¬ |(1 : ℝ)| ≤ 1 / 2 ^ 52
    norm_num
  rw [Klement.degenerate, Vector.any_eq_false]
  intro i hi
  rw [getElem_vec]
  simpa [single] using hlarge

end Steps

/-- A run of Klement's method and one of Broyden's at one point of a problem, whose estimates are
of one slope. -/
structure Matched (P : Problem Exact 1) (x : Iteration Exact 1 (Memory (Vec Exact 1)))
    (y : Iteration Exact 1 (Memory (Mat Exact 1 1))) : Prop where
  problem : x.problem = P
  problem' : y.problem = P
  u : y.u = x.u
  fu : y.fu = x.fu
  finite : x.u.allFinite = true
  value : P.residual x.u = .ok x.fu
  slope : ∃ d : ℝ, d ≠ 0 ∧ x.memory.estimate = vec (single d) ∧ y.memory.estimate = mat !![d⁻¹]

section Runs

variable {limit limit' : ℕ} {o : Options Exact} {P : Problem Exact 1}
  {x x' : Iteration Exact 1 (Memory (Vec Exact 1))}
  {y y' : Iteration Exact 1 (Memory (Mat Exact 1 1))}

/-- Out of place, the residual does not depend on the array it is evaluated into. -/
theorem residual_of_fault (hP : P.system.isInPlace = false) {u out : Vec Exact 1}
    (h : (P.residualInto u out).fault = none) :
    P.residual u = .ok (P.residualInto u out).array := by
  have hw : P.system.Overwrites := by
    cases hs : P.system with
    | outOfPlace f jac => trivial
    | inPlace f jac =>
      rw [hs] at hP
      cases hP
  rw [Problem.residual, Problem.residualInto_eq_of_overwrites hw h, Filled.toExcept, h]

/-- Where the estimates are of one slope, the steps are the same, and so is the secant that both
learn from. -/
theorem Matched.stride (hP : P.system.isInPlace = false) (h : Matched P x y)
    (hx : Stride Klement.updated (Klement.delta x.memory.estimate x.fu) x x')
    (hy : Stride Broyden.updated (Broyden.delta y.memory.estimate y.fu) y y')
    (hx' : x'.problem = P) (hy' : y'.problem = P) :
    Matched P x' y' ∧
      x'.memory.estimate.get 0 = (x'.fu.get 0 - x.fu.get 0) / (x'.u.get 0 - x.u.get 0) := by
  obtain ⟨hpx, hpy, hu, hfu, hfinite, hvalue, d, hd, hdiag, hinverse⟩ := h
  have hdelta := hx.finite
  rw [hdiag] at hdelta
  obtain ⟨f, hf⟩ := residual_of_delta hdelta
  rw [hdiag, hf, klement_delta_single hd] at hx
  rw [hinverse, hfu, hf, broyden_delta_single] at hy
  generalize -(d⁻¹ * f) = a at hx hy
  have hu' : y'.u = x'.u := by rw [hy.u, hx.u, hu]
  have hfu' : y'.fu = x'.fu := by rw [hy.fu, hx.fu, hpy, hpx, hu, hfu]
  have hvalue' : P.residual x'.u = .ok x'.fu := by
    have hfault := hx.fault
    rw [hpx] at hfault
    rw [hx.u, hx.fu, hpx]
    exact residual_of_fault hP hfault
  -- Broyden's update is made only if both the step and the change are not zero.
  have hbroyden := hy.estimate
  rw [hinverse, hfu', hfu] at hbroyden
  obtain ⟨η, hη, hne, hK⟩ := Broyden.updated_mat hbroyden
  obtain ⟨b, rfl⟩ : ∃ b, η = single b := ⟨η 0, eq_single η⟩
  have hproduct : a * (d⁻¹ * b) ≠ 0 := by
    simpa [dotProduct, Matrix.mulVec, single] using hne
  have ha : a ≠ 0 := left_ne_zero_of_mul hproduct
  have hb : b ≠ 0 := right_ne_zero_of_mul (right_ne_zero_of_mul hproduct)
  have hsecant := congrFun (Broyden.inverseUpdate_mulVec hne) 0
  generalize Broyden.inverseUpdate !![d⁻¹] _ _ = K at hK hsecant
  have hentry : K 0 0 = a / b := by
    rw [eq_div_iff hb]
    simpa [Matrix.mulVec, dotProduct, single] using hsecant
  have hklement := hx.estimate
  rw [hdiag, hη] at hklement
  have hslope := klement_updated_single hd ha hklement
  refine ⟨⟨hx', hy', hu', hfu', ?_, hvalue', b / a, div_ne_zero hb ha, hslope, ?_⟩, ?_⟩
  · rw [hx.u]
    exact allFinite_add hfinite (allFinite_vec _)
  · rw [hK, eq_of_entry K, hentry, inv_div]
  · obtain ⟨v, hv⟩ := allFinite_iff.mp hfinite
    have hchange : x'.fu.get 0 - x.fu.get 0 = real b := by
      have hentry : (x'.fu - x.fu).get 0 = real b := by rw [hη, get_single]
      exact (Vector.getElem_sub x'.fu x.fu 0 Nat.one_pos).symm.trans hentry
    have hstep : x'.u.get 0 - x.u.get 0 = real a := by
      rw [hx.u, hv, add_vec, get_vec, get_vec, sub_real]
      exact congrArg real (add_sub_cancel_left _ _)
    rw [hchange, hstep, div_real _ ha, hslope, get_single]

/-- The estimates that both methods begin with are of slope one. -/
theorem matched_begun {fu : Vec Exact 1} (hstart : P.start.allFinite = true)
    (hvalue : P.residual P.start = .ok fu) : Matched P (begun (Klement.method limit o 1) P fu)
      (begun (Broyden.method limit' o 1) P fu) := by
  refine ⟨rfl, rfl, rfl, rfl, hstart, hvalue, 1, one_ne_zero, ?_, ?_⟩
  · exact eq_vec_single one_eq
  · rw [inv_one]
    exact identity_single

variable {bK : Iteration Exact 1 (Memory (Vec Exact 1))}
  {bB : Iteration Exact 1 (Memory (Mat Exact 1 1))} {k : ℕ}

/-- After as many laps without a reset, the runs are matched, and the estimate is the slope of the
secant through the last two points. -/
theorem Matched.laps (hP : P.system.isInPlace = false) (hb : Matched P bK bB)
    (hx : Laps (Klement.method limit o 1) k bK x) (hy : Laps (Broyden.method limit' o 1) k bB y)
    (hxr : x.memory.resets = 0) (hyr : y.memory.resets = 0) : Matched P x y ∧
      ∀ j, k = j + 1 → P.residual (after (Klement.method limit o 1) j bK).u =
          .ok (after (Klement.method limit o 1) j bK).fu ∧
        x.memory.estimate.get 0 = (x.fu.get 0 - (after (Klement.method limit o 1) j bK).fu.get 0) /
          (x.u.get 0 - (after (Klement.method limit o 1) j bK).u.get 0) := by
  induction k generalizing x y with
  | zero =>
    cases hx
    cases hy
    exact ⟨hb, nofun⟩
  | succ k ih =>
    obtain ⟨x₀, hx₀, hxo, hxl⟩ := hx.last
    obtain ⟨y₀, hy₀, hyo, hyl⟩ := hy.last
    obtain ⟨hxle, hxstride⟩ := Klement.stride_of_lap hxl
    obtain ⟨hyle, hystride⟩ := Broyden.stride_of_lap hyl
    have hx₀r : x₀.memory.resets = 0 := by omega
    have hy₀r : y₀.memory.resets = 0 := by omega
    obtain ⟨hmatched, -⟩ := ih hx₀ hy₀ hx₀r hy₀r
    have hxp := (hxl.wp_iff.mp (wp_lap (Algorithm.keeps_at (.klement limit) o))).1
    have hyp := (hyl.wp_iff.mp (wp_lap (Algorithm.keeps_at (.broyden limit') o))).1
    obtain ⟨hnext, hslope⟩ := hmatched.stride hP (hxstride (hxr.trans hx₀r.symm)).2
      (hystride (hyr.trans hy₀r.symm)) (hxp.trans hmatched.problem) (hyp.trans hmatched.problem')
    refine ⟨hnext, fun j hj => ?_⟩
    obtain rfl : k = j := by omega
    rw [hx₀.after_eq hxo]
    exact ⟨hmatched.value, hslope⟩

end Runs

/-- On a problem with one unknown, the methods of Klement and Broyden are one secant method. From
one starting point and after as many steps, neither of them having registered a reset, both are at
the same point with the same residual; the diagonal of the one times the inverse of the other is
one; and the diagonal is the slope of the secant through the last two points. -/
theorem klement_broyden_same_secant {limit limit' : ℕ} {o : Options Exact} {P : Problem Exact 1}
    (hP : P.system.isInPlace = false) (hstart : P.start.allFinite = true)
    {bK x : Iteration Exact 1 (Memory (Vec Exact 1))}
    {bB y : Iteration Exact 1 (Memory (Mat Exact 1 1))}
    (hbK : (start (Klement.method limit o 1) P).Returns () bK ())
    (hbB : (start (Broyden.method limit' o 1) P).Returns () bB ()) {rs rs' : List (Request Exact)}
    (hx : Act.Served (serve (Klement.method limit o 1)) (GoesOn (Klement.method limit o 1)) bK rs x)
    (hy : Act.Served (serve (Broyden.method limit' o 1)) (GoesOn (Broyden.method limit' o 1)) bB
      rs' y)
    {k : ℕ} (hxk : x.stats.nsteps = k) (hyk : y.stats.nsteps = k)
    (hxr : x.memory.resets = 0) (hyr : y.memory.resets = 0) :
    y.u = x.u ∧ y.fu = x.fu ∧ P.residual x.u = .ok x.fu ∧
      x.memory.estimate.get 0 * (y.memory.estimate.get 0).get 0 = 1.0 ∧
      ∀ j, k = j + 1 → P.residual (after (Klement.method limit o 1) j bK).u =
          .ok (after (Klement.method limit o 1) j bK).fu ∧
        x.memory.estimate.get 0 = (x.fu.get 0 - (after (Klement.method limit o 1) j bK).fu.get 0) /
          (x.u.get 0 - (after (Klement.method limit o 1) j bK).u.get 0) := by
  obtain ⟨hfault, rfl⟩ := hbK.wp_iff.mp wp_start_begun
  obtain ⟨-, rfl⟩ := hbB.wp_iff.mp wp_start_begun
  have hbegun : Matched P (begun (Klement.method limit o 1) P _)
      (begun (Broyden.method limit' o 1) P _) := matched_begun hstart (residual_of_fault hP hfault)
  obtain ⟨i, v, hv, hi, hxv⟩ := laps_of_served (Algorithm.keeps_at (.klement limit) o) hx rfl
  obtain ⟨j, w, hw, hj, hyw⟩ := laps_of_served (Algorithm.keeps_at (.broyden limit') o) hy rfl
  obtain rfl : i = k := by omega
  obtain rfl : j = i := by omega
  obtain ⟨hxu, hxf, -, hxm⟩ := reading_of_tested hxv
  obtain ⟨hyu, hyf, -, hym⟩ := reading_of_tested hyw
  rw [hxm] at hxr
  rw [hym] at hyr
  rw [hxm, hym, hxu, hyu, hxf, hyf]
  obtain ⟨hmatched, hslope⟩ := hbegun.laps hP hv hw hxr hyr
  refine ⟨hmatched.u, hmatched.fu, hmatched.value, ?_, hslope⟩
  obtain ⟨d, hd, hdiag, hinverse⟩ := hmatched.slope
  rw [hdiag, hinverse, one_eq]
  exact congrArg real (mul_inv_cancel₀ hd)

section Halving

/-- The first step of Klement's method goes halfway to zero, as that of Broyden's does. -/
theorem klement_step_halving : ∃ x,
    (step (Klement.method 5 exactly 1)).Returns (halvingRun (Klement.method 5 exactly 1)) () x ∧
      x.u = vec (single (1 / 2)) ∧ x.fu = vec (single (1 / 4)) ∧ x.stats.nsteps = 1 ∧
      x.memory.resets = 0 := by
  have hones : (halvingRun (Klement.method 5 exactly 1)).memory.estimate = vec (single 1) :=
    eq_vec_single one_eq
  obtain ⟨K, hK⟩ := exists_klement_updated_single (d := 1) (a := -(1 / 2)) (b := -(1 / 4))
    one_ne_zero (by norm_num)
  have hd : Klement.delta (halvingRun (Klement.method 5 exactly 1)).memory.estimate
      (halvingRun (Klement.method 5 exactly 1)).fu = vec (single (-(1 / 2))) := by
    rw [hones, halvingRun_fu, klement_delta_single one_ne_zero]
    norm_num
  rw [← hones] at hK
  obtain ⟨x, hx, hu, hfu, hsteps, hm⟩ := step_halving (m := Klement.method 5 exactly 1) rfl
    (fun hfault => Klement.returns_lap (hones ▸ degenerate_one) hd (allFinite_vec _) hfault)
    hK
  exact ⟨x, hx, hu, hfu, hsteps, by rw [hm]; rfl⟩

/-- After one step of both methods, the slope is one half. -/
theorem klement_broyden_same_secant_halving : ∃ x y,
    (step (Klement.method 5 exactly 1)).Returns (halvingRun (Klement.method 5 exactly 1)) () x ∧
      (step (Broyden.method 5 exactly 1)).Returns (halvingRun (Broyden.method 5 exactly 1)) () y ∧
      x.u = vec (single (1 / 2)) ∧ y.u = x.u ∧ y.fu = x.fu ∧
      x.memory.estimate.get 0 * (y.memory.estimate.get 0).get 0 = 1.0 ∧
      x.memory.estimate.get 0 = real (1 / 2) := by
  obtain ⟨x, hx, hu, hfu, hxk, hxr⟩ := klement_step_halving
  obtain ⟨y, hy, -, -, hyk, hyr⟩ := Broyden.step_halving
  obtain ⟨hyu, hyf, -, hone, hslope⟩ := klement_broyden_same_secant rfl (allFinite_vec _)
    returns_start_halving returns_start_halving (served_step hx) (served_step hy) (k := 1)
    hxk hyk hxr hyr
  refine ⟨x, y, hx, hy, hu, hyu, hyf, hone, ?_⟩
  rw [(hslope 0 rfl).2, hfu, hu]
  change (Vector.get _ 0 - Vector.get (halvingRun _).fu 0) /
    (Vector.get _ 0 - Vector.get (vec (single 1)) 0) = _
  rw [halvingRun_fu, get_single, get_single, get_single, sub_real, sub_real,
    div_real _ (by norm_num)]
  norm_num

end Halving

end Rootfinder.Secant
