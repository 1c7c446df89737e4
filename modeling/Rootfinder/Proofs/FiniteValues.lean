import Rootfinder.Proofs.TrustRegionSteps

namespace Rootfinder

open Exact

variable {n : ℕ}

/-- A problem whose values at finite points are finite, as far as there are any. Where its Jacobian
is approximated, the relative step is a positive number. -/
structure Problem.Finite (d : Differencing Exact) (P : Problem Exact n) : Prop where
  start : P.start.allFinite = true
  residual : ∀ u out : Vec Exact n, u.allFinite = true → out.allFinite = true →
    (P.residualInto u out).fault = none → (P.residualInto u out).array.allFinite = true
  jacobian : ∀ u J, u.allFinite = true → P.jacobian u = .ok J → J.allFinite = true
  step : P.system.hasJacobian = false → ∃ h : ℝ, 0 < h ∧ d.step = .ok (real h)

namespace Exact

theorem allFinite_entries {A : Mat Exact n n} : A.allFinite = true ↔
    ∀ (i : ℕ) (hi : i < n) (j : ℕ) (hj : j < n), Scalar.isFinite A[i][j] = true := by
  simp only [Mat.allFinite, Vec.allFinite, Vector.all_eq_true]

/-- The matrices with finite entries are the real ones. -/
theorem allFinite_mat_iff {J : Mat Exact n n} : J.allFinite = true ↔ ∃ A, J = mat A := by
  rw [allFinite_entries]
  constructor
  · intro h
    choose A hA using fun i j : Fin n => isFinite_iff.mp (h i i.isLt j j.isLt)
    refine ⟨A, Vector.ext fun i hi => Vector.ext fun j hj => ?_⟩
    rw [hA ⟨i, hi⟩ ⟨j, hj⟩]
    simp [mat]
  · rintro ⟨A, rfl⟩ i hi j hj
    simp [mat]

theorem allFinite_vec (v : EuclideanSpace ℝ (Fin n)) : (vec v).allFinite = true :=
  allFinite_iff.mpr ⟨v, rfl⟩

theorem allFinite_zero : (Vec.zero n : Vec Exact n).allFinite = true := by
  rw [zero_vec]
  exact allFinite_vec 0

theorem allFinite_add {u v : Vec Exact n} (hu : u.allFinite = true) (hv : v.allFinite = true) :
    (u + v).allFinite = true := by
  obtain ⟨x, rfl⟩ := allFinite_iff.mp hu
  obtain ⟨y, rfl⟩ := allFinite_iff.mp hv
  rw [add_vec]
  exact allFinite_vec _

theorem unit_vec (j : Fin n) : Vec.unit j = vec (EuclideanSpace.single j 1) := by
  ext i hi
  simp only [Vec.unit, Vector.getElem_ofFn, getElem_vec, PiLp.single_apply, apply_ite real,
    one_eq, zero_eq]

theorem divide_vec (v : EuclideanSpace ℝ (Fin n)) {c : ℝ} (hc : c ≠ 0) :
    Vec.divide (vec v) (real c) = vec (c⁻¹ • v) := by
  ext i hi
  simp [Vec.divide, div_real _ hc, div_eq_inv_mul]

theorem stepLength_vec (h : ℝ) (v : EuclideanSpace ℝ (Fin n)) :
    Jacobian.stepLength (real h) (vec v) (real 1) = real (h * max 1 ‖v‖) := by
  simp [Jacobian.stepLength, div_real]

end Exact

section Jacobians

variable {P : Problem Exact n} {d : Differencing Exact} {u fu : Vec Exact n} {st : Stats}

theorem Problem.Finite.evaluates (hP : P.Finite d) {r : Vec Exact n} (hu : u.allFinite = true)
    (hr : P.residual u = .ok r) : r.allFinite = true := by
  simp only [Problem.residual, Filled.toExcept] at hr
  split at hr
  · rename_i hfault
    obtain rfl := Except.ok.inj hr
    exact hP.residual u _ hu allFinite_zero hfault
  · cases hr

namespace Jacobian

theorem wp_probe_finite (hP : P.Finite d) (hu : u.allFinite = true) :
    (probe P u).wp (fun r _ => r.allFinite = true) (fun _ _ => True) st := by
  rw [probe, Act.wp_bind]
  cases hr : P.residual u with
  | error e => trivial
  | ok r =>
    rw [Act.wp_ofExcept_ok, Act.wp_bind, Act.wp_update]
    exact hP.evaluates hu hr

/-- A difference quotient along a coordinate is finite, because the perturbation is not zero. -/
theorem wp_directional_finite (hP : P.Finite d) (hd : P.system.hasJacobian = false)
    (hu : u.allFinite = true) (hfu : fu.allFinite = true) (j : Fin n) :
    (directional P d u fu (Vec.unit j)).wp (fun c _ => c.allFinite = true)
      (fun _ _ => True) st := by
  obtain ⟨step, hstep, hd⟩ := hP.step hd
  obtain ⟨x, rfl⟩ := allFinite_iff.mp hu
  obtain ⟨y, rfl⟩ := allFinite_iff.mp hfu
  have hlength : (vec (EuclideanSpace.single j (1 : ℝ))).euclid = real 1 := by simp
  have hnonzero : (real 1 == (0.0 : Exact)) = false := by simp
  have hh : step * max 1 ‖x‖ ≠ 0 := by positivity
  have hquotient : ∀ {c : ℝ} {a b : Vec Exact n}, c ≠ 0 → a.allFinite = true →
      b.allFinite = true → (Vec.divide (a - b) (real c)).allFinite = true := by
    intro c a b hc ha hb
    obtain ⟨v, rfl⟩ := allFinite_iff.mp ha
    obtain ⟨w, rfl⟩ := allFinite_iff.mp hb
    rw [sub_vec, divide_vec _ hc]
    exact allFinite_vec _
  rw [directional, quotient, unit_vec, hlength, hnonzero, if_neg Bool.false_ne_true, hd,
    Act.wp_bind, Act.wp_ofExcept_ok, Act.wp_bind, Act.wp_ofExcept_ok, stepLength_vec]
  simp only [scale_vec, add_vec, sub_vec]
  rw [Act.wp_bind]
  refine (wp_probe_finite hP (allFinite_vec _)).mono (fun ahead _ ha => ?_) fun _ _ h => h
  by_cases hc : d.central = true
  · rw [if_pos hc, Act.wp_bind]
    refine (wp_probe_finite hP (allFinite_vec _)).mono (fun behind _ hb => ?_) fun _ _ h => h
    rw [two_eq, mul_real]
    exact hquotient (mul_ne_zero two_ne_zero hh) ha hb
  · rw [if_neg hc]
    exact hquotient hh ha hfu

theorem allFinite_setColumn {A : Mat Exact n n} {c : Vec Exact n} (hA : A.allFinite = true)
    (hc : c.allFinite = true) (j : Fin n) : (A.setColumn j c).allFinite = true := by
  rw [allFinite_entries] at hA ⊢
  intro i hi k hk
  simp only [Mat.setColumn, Vector.getElem_ofFn, Fin.getElem_fin, Vector.getElem_set]
  split
  · exact Vector.all_eq_true.mp hc i hi
  · exact hA i hi k hk

theorem wp_differences_finite (hP : P.Finite d) (hd : P.system.hasJacobian = false)
    (hu : u.allFinite = true) (hfu : fu.allFinite = true) :
    (differences P d u fu).wp (fun J _ => J.allFinite = true) (fun _ _ => True) st := by
  have hzero : (Mat.zero n n : Mat Exact n n).allFinite = true := by
    rw [Mat.allFinite, Vector.all_eq_true]
    intro i hi
    rw [Mat.zero, Vector.getElem_replicate]
    exact allFinite_zero
  unfold differences
  generalize (Mat.zero n n : Mat Exact n n) = J at hzero
  induction List.finRange n generalizing J st with
  | nil => exact hzero
  | cons j js ih =>
    rw [List.foldlM_cons, Act.wp_bind, Act.wp_bind]
    refine (wp_directional_finite hP hd hu hfu j).mono (fun c _ hc => ?_) fun _ _ h => h
    exact ih _ (allFinite_setColumn hzero hc j)

/-- The Jacobian of a problem with finite values is finite. -/
theorem wp_dense_finite (hP : P.Finite d) (hu : u.allFinite = true) (hfu : fu.allFinite = true) :
    (dense P d u fu).wp (fun J _ => J.allFinite = true) (fun _ _ => True) st := by
  rw [dense, Act.wp_bind, Act.wp_update, matrix]
  cases hd : P.system.hasJacobian with
  | false => exact wp_differences_finite hP hd hu hfu
  | true =>
    rw [if_pos rfl]
    cases hJ : P.jacobian u with
    | error e => trivial
    | ok J => exact hP.jacobian u J hu hJ

end Jacobian

end Jacobians

namespace TrustRegion

open Iteration

variable {scheme : Scheme} {l : Linearization Exact} {o : Options Exact}
  {y z : Iteration Exact n (Memory Exact n)}

variable (l) in
structure Whole (it : Iteration Exact n (Memory Exact n)) : Prop where
  problem : it.problem.Finite l.differencing
  u : it.u.allFinite = true
  fu : it.fu.allFinite = true
  jacobian : ∀ J ∈ it.memory.jacobian, J.allFinite = true

/-- Work and changes of the region leave a state finite. -/
theorem Whole.still (h : Whole l y) (hz : Still y z)
    (hJ : z.memory.jacobian = y.memory.jacobian) : Whole l z :=
  ⟨hz.problem ▸ h.problem, hz.u ▸ h.u, hz.fu ▸ h.fu, hJ ▸ h.jacobian⟩

theorem keeps_counting_whole {β : Type} (c : Act Exact Stats β) :
    (counting c : Act Exact (Iteration Exact n (Memory Exact n)) β).Keeps (Whole l) :=
  Act.keeps_zoom c fun _ _ h => ⟨h.problem, h.u, h.fu, h.jacobian⟩

theorem wp_build_whole (hy : Whole l y) :
    (counting (Jacobian.dense y.problem l.differencing y.u y.fu)).wp
      (fun J z => J.allFinite = true ∧ Whole l z) (fun _ _ => True) y := by
  rw [counting, Act.wp_zoom]
  refine (Jacobian.wp_dense_finite hy.problem hy.u hy.fu).mono (fun J st hJ => ?_)
    fun _ _ _ => trivial
  exact ⟨hJ, hy.problem, hy.u, hy.fu, hy.jacobian⟩

/-- The Jacobian that a step uses is finite. -/
theorem wp_jacobian_whole (hy : Whole l y) :
    (jacobian l).wp (fun J z => J.allFinite = true ∧ Whole l z) (fun _ _ => True) y := by
  rw [jacobian, Act.wp_bind, Act.wp_read]
  cases hm : y.memory.jacobian with
  | some J => exact ⟨hy.jacobian J hm, hy⟩
  | none =>
    rw [Act.wp_bind]
    refine (wp_build_whole hy).mono (fun J z hz => ?_) fun _ _ h => h
    obtain ⟨hJ, hz⟩ := hz
    exact ⟨hJ, hz.problem, hz.u, hz.fu, fun K hK => Option.some.inj hK ▸ hJ⟩

theorem keeps_newtonStep_whole (J : Mat Exact n n) : (newtonStep l J).Keeps (Whole l) := by
  unfold newtonStep
  refine Act.keeps_read.bind fun it => (keeps_counting_whole _).attempt.bind fun r => ?_
  split
  · exact Act.keeps_pure _
  · exact Act.Keeps.ite (Act.keeps_pure _) (Act.keeps_raise _)

section Rules

variable {prm : Params Exact} {rho size : Exact} {s trial r fu : Vec Exact n}

theorem keeps_remembering_whole {β : Type} {c : Act Exact (Memory Exact n) β}
    (hc : ∀ K, c.Keeps (Holds K)) : (remembering c).Keeps (Whole l) := by
  apply Act.keeps_of_wp
  intro it h
  have hkept : ∀ m : Memory Exact n, Holds it.memory.jacobian m →
      Whole l { it with memory := m } := fun m hm => h.still ⟨rfl, rfl, rfl, rfl, rfl⟩ hm
  rw [remembering, Act.wp_zoom]
  exact ((hc it.memory.jacobian).wp rfl).mono (fun _ m hm => hkept m hm) fun _ m hm => hkept m hm

theorem wp_updateBastin_whole (hz : Whole l z) (ht : trial.allFinite = true)
    (hr : r.allFinite = true) : (updateBastin prm l rho s trial r).wp (fun _ => Whole l)
      (fun _ _ => True) z := by
  rw [updateBastin]
  refine wp_verdict fun kept _ => ?_
  cases kept with
  | true =>
    rw [if_pos rfl, Act.wp_bind, remembering, Act.wp_zoom, shrink, Act.wp_update]
    exact ⟨hz.problem, hz.u, hz.fu, hz.jacobian⟩
  | false =>
    rw [if_neg Bool.false_ne_true, Act.wp_bind, remembering, Act.wp_zoom, recover, Act.wp_update,
      Act.wp_bind, Act.wp_read, Act.wp_bind, Iteration.adopt, Act.wp_update, Act.wp_bind,
      Act.wp_read, Act.wp_bind]
    have hmoved : Whole l { z with
        u := trial, fu := r, memory := { z.memory with shrinks := 0 } } :=
      ⟨hz.problem, ht, hr, hz.jacobian⟩
    refine (wp_build_whole hmoved).mono (fun J x hx => ?_) fun _ _ _ => trivial
    obtain ⟨hJ, hx⟩ := hx
    rw [Act.wp_bind, remembering, Act.wp_zoom, Act.wp_bind, Act.wp_update]
    have hbuilt : Holds (some J) { x.memory with jacobian := some J } := rfl
    refine (keeps_adjustBastin_holds.wp hbuilt).mono (fun _ m hm => ?_) fun _ _ _ => trivial
    refine ⟨hx.problem, hx.u, hx.fu, fun K hK => ?_⟩
    obtain rfl : J = K := Option.some.inj (hm.symm.trans hK)
    exact hJ

theorem wp_update_whole (hz : Whole l z) (ht : trial.allFinite = true) (hr : r.allFinite = true) :
    (update scheme prm l rho s trial r).wp (fun _ => Whole l) (fun _ _ => True) z := by
  have hplain : ∀ {c : Act Exact (Memory Exact n) Bool}, (∀ K, c.Keeps (Holds K)) →
      (remembering c).wp (fun _ => Whole l) (fun _ _ => True) z := fun hc =>
    ((keeps_remembering_whole hc).wp hz).mono (fun _ _ h => h) fun _ _ _ => trivial
  cases scheme with
  | simple => exact hplain fun _ => keeps_updateSimple_holds
  | nlsolve => exact hplain fun _ => keeps_updateNlsolve_holds
  | bastin => exact wp_updateBastin_whole hz ht hr
  | fan =>
    rw [update, Act.wp_bind, Act.wp_read]
    exact hplain fun _ => keeps_updateFan_holds

theorem settle_jacobian {m : Memory Exact n} {J : Mat Exact n n}
    (h : J ∈ (settle scheme fu m).jacobian) : J ∈ m.jacobian := by
  cases scheme
  case bastin => exact h
  all_goals cases h

theorem wp_attemptStep_whole {J : Mat Exact n n} (hs : s.allFinite = true) (hz : Whole l z) :
    (attemptStep scheme prm l o J s).wp (fun _ => Whole l) (fun _ _ => True) z := by
  have htrial := allFinite_add hz.u hs
  rw [attemptStep, Act.wp_bind, Act.wp_read, Act.wp_bind, Iteration.evaluate, Act.wp_bind,
    Act.wp_update, Act.wp_bind, Act.wp_read]
  cases hr : z.problem.residual (z.u + s) with
  | error e => trivial
  | ok r =>
    have hr := hz.problem.evaluates htrial hr
    have hended : ∀ x : Iteration Exact n (Memory Exact n), Whole l x →
        Whole l { x with code := .shrinkThresholdExceeded, stopped := true } :=
      fun x hx => ⟨hx.problem, hx.u, hx.fu, hx.jacobian⟩
    have hcounted : Whole l { z with stats := z.stats.countResidual } :=
      ⟨hz.problem, hz.u, hz.fu, hz.jacobian⟩
    rw [Act.wp_ofExcept_ok, Act.wp_bind]
    refine (wp_update_whole hcounted htrial hr).mono (fun accepted x hx => ?_)
      fun _ _ _ => trivial
    split
    · rw [Act.wp_bind, Iteration.adopt, Act.wp_update, Act.wp_bind, remembering, Act.wp_zoom,
        Act.wp_update, Act.wp_bind, Act.wp_read]
      exact wp_exhausted_of
        ⟨hx.problem, htrial, hr, fun K hK => hx.jacobian K (settle_jacobian hK)⟩ (hended _)
    · rw [Act.wp_bind, Act.wp_read]
      exact wp_exhausted_of hx (hended x)

/-- On a problem with finite values, a step leads from finite numbers to finite numbers. -/
theorem wp_advance_whole (hy : Whole l y) :
    (advance scheme prm l o).wp (fun _ => Whole l) (fun _ _ => True) y := by
  rw [advance_eq, Act.wp_bind]
  refine (wp_jacobian_whole hy).mono (fun J z hz => ?_) fun _ _ h => h
  have hsearch : (search l J).Keeps (Whole l) := (keeps_newtonStep_whole J).bind fun _ =>
    Act.keeps_read.bind fun _ => Act.keeps_ofExcept _
  rw [Act.wp_bind]
  refine (hsearch.wp hz.2).mono (fun s z' hz' => ?_) fun _ _ _ => trivial
  split
  · exact wp_attemptStep_whole ‹_› hz'
  · rw [wp_terminate]
    exact ⟨hz'.problem, hz'.u, hz'.fu, hz'.jacobian⟩

end Rules

end TrustRegion

end Rootfinder
