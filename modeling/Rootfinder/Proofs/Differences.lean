import Rootfinder.Proofs.FiniteValues

namespace Rootfinder

open Exact MvPolynomial

variable {n : ℕ}

section Lines

variable (p : MvPolynomial (Fin n) ℝ) (u v : Fin n → ℝ)

noncomputable def onLine : Polynomial ℝ :=
  aeval (fun i => Polynomial.C (u i) + Polynomial.C (v i) * Polynomial.X) p

theorem eval_onLine (t : ℝ) : (onLine p u v).eval t = eval (fun i => u i + t * v i) p := by
  induction p using MvPolynomial.induction_on with
  | C a => simp [onLine]
  | add p q hp hq =>
    simp only [onLine, map_add, Polynomial.eval_add] at hp hq ⊢
    rw [hp, hq]
  | mul_X p i hp =>
    simp only [onLine, map_mul, aeval_X, eval_X, Polynomial.eval_mul] at hp ⊢
    rw [hp]
    simp [mul_comm t]

theorem natDegree_onLine_le : (onLine p u v).natDegree ≤ p.totalDegree := by
  have hlinear : ∀ i, (Polynomial.C (u i) + Polynomial.C (v i) * Polynomial.X).natDegree ≤ 1 :=
    fun i => by
      rw [add_comm]
      exact Polynomial.natDegree_linear_le
  simpa [onLine] using aeval_natDegree_le p le_rfl _ hlinear

/-- The chain rule. -/
theorem eval_derivative_onLine :
    (onLine p u v).derivative.eval 0 = ∑ j, eval u (pderiv j p) * v j := by
  have hstart : ∀ q, (onLine q u v).eval 0 = eval u q := fun q => by simp [eval_onLine]
  induction p using MvPolynomial.induction_on with
  | C a => simp [onLine]
  | add p q hp hq =>
    have hadd : onLine (p + q) u v = onLine p u v + onLine q u v := map_add _ p q
    simp only [hadd, map_add, Polynomial.eval_add, add_mul, Finset.sum_add_distrib, hp, hq]
  | mul_X p i hp =>
    have hmul : onLine (p * X i) u v =
        onLine p u v * (Polynomial.C (u i) + Polynomial.C (v i) * Polynomial.X) := by
      simp [onLine]
    have hterm : ∀ j, eval u (pderiv j (p * X i)) * v j =
        eval u (pderiv j p) * v j * u i + if i = j then eval u p * v j else 0 := fun j => by
      rw [pderiv_mul, pderiv_X, Pi.single_apply, map_add, map_mul, eval_X]
      split <;> simp <;> ring
    simp only [hterm, Finset.sum_add_distrib, ← Finset.sum_mul, Finset.sum_ite_eq,
      Finset.mem_univ, if_true, ← hp, ← hstart p, hmul]
    simp

/-- The central differences of a parabola are its slope. -/
theorem eval_sub_eval_neg {q : Polynomial ℝ} (hq : q.natDegree ≤ 2) (t : ℝ) :
    q.eval t - q.eval (-t) = 2 * t * q.derivative.eval 0 := by
  rw [Polynomial.eq_quadratic_of_degree_le_two (Polynomial.natDegree_le_iff_degree_le.mp hq)]
  simp
  ring

end Lines

/-- A problem evaluates a function of Euclidean space. -/
def Problem.Realizes (P : Problem Exact n)
    (F : EuclideanSpace ℝ (Fin n) → EuclideanSpace ℝ (Fin n)) : Prop :=
  ∀ x, P.residual (vec x) = .ok (vec (F x))

namespace Jacobian

section Stencils

variable {central : Bool} {u v : EuclideanSpace ℝ (Fin n)} {t : ℝ}
  {F : EuclideanSpace ℝ (Fin n) → EuclideanSpace ℝ (Fin n)} {J : Matrix (Fin n) (Fin n) ℝ}

noncomputable def stencil (central : Bool)
    (F : EuclideanSpace ℝ (Fin n) → EuclideanSpace ℝ (Fin n)) (u v : EuclideanSpace ℝ (Fin n))
    (t : ℝ) : EuclideanSpace ℝ (Fin n) :=
  if central then (t + t)⁻¹ • (F (u + t • v) - F (u - t • v)) else t⁻¹ • (F (u + t • v) - F u)

/-- The residuals that a stencil differentiates without an error, with their Jacobians at `u`. -/
inductive Differenced (central : Bool) (u : EuclideanSpace ℝ (Fin n)) :
    (EuclideanSpace ℝ (Fin n) → EuclideanSpace ℝ (Fin n)) → Matrix (Fin n) (Fin n) ℝ → Prop where
  | affine (A : Matrix (Fin n) (Fin n) ℝ) (b : EuclideanSpace ℝ (Fin n)) :
      Differenced central u (fun x => A.toEuclideanLin x + b) A
  | quadratic (p : Fin n → MvPolynomial (Fin n) ℝ) (hdeg : ∀ i, (p i).totalDegree ≤ 2)
      (hc : central = true) :
      Differenced central u (fun x => WithLp.toLp 2 fun i => eval x.ofLp (p i))
        (Matrix.of fun i j => eval u.ofLp (pderiv j (p i)))

theorem stencil_affine (A : Matrix (Fin n) (Fin n) ℝ) (b : EuclideanSpace ℝ (Fin n))
    (ht : t ≠ 0) : stencil central (fun x => A.toEuclideanLin x + b) u v t =
      A.toEuclideanLin v := by
  unfold stencil
  split
  · have htwice : A.toEuclideanLin (u + t • v) + b - (A.toEuclideanLin (u - t • v) + b) =
        (2 * t) • A.toEuclideanLin v := by
      rw [map_add, map_sub, map_smul]
      module
    rw [htwice, ← two_mul, inv_smul_smul₀ (mul_ne_zero two_ne_zero ht)]
  · have honce : A.toEuclideanLin (u + t • v) + b - (A.toEuclideanLin u + b) =
        t • A.toEuclideanLin v := by
      rw [map_add, map_smul]
      module
    rw [honce, inv_smul_smul₀ ht]

theorem stencil_quadratic {p : Fin n → MvPolynomial (Fin n) ℝ}
    (hdeg : ∀ i, (p i).totalDegree ≤ 2) (ht : t ≠ 0) :
    stencil true (fun x => WithLp.toLp 2 fun i => eval x.ofLp (p i)) u v t =
      (Matrix.of fun i j => eval u.ofLp (pderiv j (p i))).toEuclideanLin v := by
  ext i
  have hcentral := eval_sub_eval_neg ((natDegree_onLine_le (p i) u v).trans (hdeg i)) t
  rw [eval_onLine, eval_onLine, eval_derivative_onLine] at hcentral
  have hahead : (u + t • v).ofLp = fun i => u i + t * v i := rfl
  have hbehind : (u - t • v).ofLp = fun i => u i + -t * v i := by
    ext j
    simp [sub_eq_add_neg]
  rw [stencil, if_pos rfl, PiLp.smul_apply, PiLp.sub_apply, hahead, hbehind, hcentral, smul_eq_mul,
    ← two_mul, inv_mul_cancel_left₀ (mul_ne_zero two_ne_zero ht)]
  rfl

theorem Differenced.stencil_eq (h : Differenced central u F J) (ht : t ≠ 0) :
    stencil central F u v t = J.toEuclideanLin v := by
  obtain ⟨-, b⟩ | ⟨p, hdeg, hc⟩ := h
  · exact stencil_affine J b ht
  · subst hc
    exact stencil_quadratic hdeg ht

end Stencils

section Problems

variable {P : Problem Exact n} {d : Differencing Exact} {h : ℝ} {s : Stats}
  {F : EuclideanSpace ℝ (Fin n) → EuclideanSpace ℝ (Fin n)} {u : EuclideanSpace ℝ (Fin n)}
  {J : Matrix (Fin n) (Fin n) ℝ}

theorem wp_probe_realized (hP : P.Realizes F) (x : EuclideanSpace ℝ (Fin n)) :
    (probe P (vec x)).wp (fun r _ => r = vec (F x)) (fun _ _ => False) s := by
  rw [probe, hP x]
  rfl

/-- Along a vector that is not zero, the perturbation is as long as the step times the iterate. -/
theorem wp_directional_stencil (hP : P.Realizes F) (hd : d.step = .ok (real h)) (hh : 0 < h)
    {v : EuclideanSpace ℝ (Fin n)} (hv : v ≠ 0) :
    (directional P d (vec u) (vec (F u)) (vec v)).wp
      (fun c _ => c = vec (stencil d.central F u v (h * max 1 ‖u‖ / ‖v‖)))
      (fun _ _ => False) s := by
  have hlength : ‖v‖ ≠ 0 := norm_ne_zero_iff.mpr hv
  have hstep : h * max 1 ‖u‖ / ‖v‖ ≠ 0 := by positivity
  have hlong : stepLength (real h) (vec u) (real ‖v‖) = real (h * max 1 ‖u‖ / ‖v‖) := by
    rw [stepLength, one_eq, euclid_vec, larger_real, mul_real, div_real _ hlength]
  have hzero : (real ‖v‖ == (0.0 : Exact)) = false := by simpa using hv
  generalize h * max 1 ‖u‖ / ‖v‖ = t at hstep hlong
  rw [directional, quotient, euclid_vec, hzero, if_neg Bool.false_ne_true, hd, Act.wp_bind,
    Act.wp_ofExcept_ok, Act.wp_bind, Act.wp_ofExcept_ok, hlong, Act.wp_bind]
  simp only [scale_vec, add_vec, sub_vec]
  refine (wp_probe_realized hP _).mono (fun ahead _ ha => ?_) fun _ _ hn => hn
  subst ha
  cases hc : d.central with
  | true =>
    rw [if_pos rfl, Act.wp_bind]
    refine (wp_probe_realized hP _).mono (fun behind _ hb => ?_) fun _ _ hn => hn
    subst hb
    rw [two_eq, mul_real, sub_vec, divide_vec _ (mul_ne_zero two_ne_zero hstep), two_mul]
    rfl
  | false =>
    rw [if_neg Bool.false_ne_true, sub_vec, divide_vec _ hstep]
    rfl

theorem getElem_setColumn (A : Mat Exact n n) (w : Vec Exact n) (k : Fin n) {i j : ℕ} (hi : i < n)
    (hj : j < n) : (A.setColumn k w)[i][j] = if j = k then w[i] else A[i][j] := by
  simp [Mat.setColumn, Vector.getElem_set, eq_comm]

section Exactness

variable (hP : P.Realizes F) (hd : d.step = .ok (real h)) (hh : 0 < h)
  (hF : Differenced d.central u F J)

include hP hd hh hF

theorem wp_directional_exact (v : EuclideanSpace ℝ (Fin n)) :
    (directional P d (vec u) (vec (F u)) (vec v)).wp
      (fun c _ => c = vec (J.toEuclideanLin v)) (fun _ _ => False) s := by
  by_cases hv : v = 0
  · have hzero : (real ‖v‖ == (0.0 : Exact)) = true := by simpa using hv
    rw [directional, quotient, euclid_vec, hzero, if_pos rfl, hv, map_zero]
    exact zero_vec
  · have hstep : h * max 1 ‖u‖ / ‖v‖ ≠ 0 := by
      have := norm_ne_zero_iff.mpr hv
      positivity
    refine (wp_directional_stencil hP hd hh hv).mono (fun c _ hc => ?_) fun _ _ hn => hn
    rw [hc, hF.stencil_eq hstep]

/-- The columns that were built are those of the Jacobian, and the others are as before. -/
theorem wp_columns (js : List (Fin n)) (K : Mat Exact n n) :
    (js.foldlM (fun (K : Mat Exact n n) j => do
      let c ← directional P d (vec u) (vec (F u)) (Vec.unit j)
      pure (K.setColumn j c)) K).wp
      (fun K' _ => ∀ (i : ℕ) (hi : i < n) (j : ℕ) (hj : j < n),
        K'[i][j] = if Fin.mk j hj ∈ js then real (J ⟨i, hi⟩ ⟨j, hj⟩) else K[i][j])
      (fun _ _ => False) s := by
  induction js generalizing K s with
  | nil => exact fun i hi j hj => by simp
  | cons k js ih =>
    rw [List.foldlM_cons, Act.wp_bind, Act.wp_bind, unit_vec]
    refine (wp_directional_exact hP hd hh hF _).mono (fun c _ hc => ?_) fun _ _ hn => hn
    rw [Act.wp_pure]
    refine (ih (K.setColumn k c)).mono (fun K' _ hK => ?_) fun _ _ hn => hn
    intro i hi j hj
    rw [hK i hi j hj]
    subst hc
    rw [getElem_setColumn]
    by_cases hjs : Fin.mk j hj ∈ js
    · simp [hjs]
    · by_cases hjk : j = k
      · subst hjk
        simp [hjs]
      · simp [hjs, hjk, Fin.ext_iff]

theorem wp_differences_exact :
    (differences P d (vec u) (vec (F u))).wp (fun K _ => K = mat J) (fun _ _ => False) s := by
  refine (wp_columns hP hd hh hF (List.finRange n) _).mono (fun K _ hK => ?_) fun _ _ hn => hn
  ext i hi j hj
  rw [hK i hi j hj, if_pos (List.mem_finRange _)]
  simp [mat]

end Exactness

/-- Differences of an affine residual, and central differences of one with quadratic components, are
exact: the quotient along every vector is the product with the Jacobian, the matrix of the quotients
along the coordinates is the Jacobian, and the products that are formed without a matrix are those
with it. -/
theorem differences_exact (hP : P.Realizes F) (hd : d.step = .ok (real h)) (hh : 0 < h)
    (hF : Differenced d.central u F J) :
    (∀ v st, ∃ st', (directional P d (vec u) (vec (F u)) (vec v)).Returns st
      (vec (J.toEuclideanLin v)) st') ∧
    (∀ st, ∃ st', (differences P d (vec u) (vec (F u))).Returns st (mat J) st') ∧
    (P.system.hasJacobian = false → ∀ st,
      (∃ st', (dense P d (vec u) (vec (F u))).Returns st (mat J) st') ∧
      (∃ st', (build true P d (vec u) (vec (F u))).Returns st (.dense (mat J)) st') ∧
      ∃ product st', (build false P d (vec u) (vec (F u))).Returns st (.operator product) st' ∧
        ∀ v st, ∃ st', (product (vec v)).Returns st ((mat J).mulVec (vec v)) st') := by
  have hdirectional : ∀ v st, ∃ st', (directional P d (vec u) (vec (F u)) (vec v)).Returns st
      (vec (J.toEuclideanLin v)) st' := fun v st => by
    obtain ⟨c, st', hr, rfl⟩ := (wp_directional_exact hP hd hh hF v (s := st)).returns
    exact ⟨st', hr⟩
  have hdifferences : ∀ st, ∃ st', (differences P d (vec u) (vec (F u))).Returns st (mat J) st' :=
    fun st => by
      obtain ⟨K, st', hr, rfl⟩ := (wp_differences_exact hP hd hh hF (s := st)).returns
      exact ⟨st', hr⟩
  refine ⟨hdirectional, hdifferences, fun hjac st => ?_⟩
  have hmatrix : matrix P d (vec u) (vec (F u)) = differences P d (vec u) (vec (F u)) := by
    rw [matrix, hjac, if_neg Bool.false_ne_true]
  obtain ⟨st', hK⟩ := hdifferences st.countJacobian
  refine ⟨⟨st', Act.returns_of_wp ?_⟩, ⟨st', Act.returns_of_wp ?_⟩,
    directional P d (vec u) (vec (F u)), st.countJacobian, Act.returns_of_wp ?_, fun v st => ?_⟩
  · rw [dense, Act.wp_bind, Act.wp_update, hmatrix, hK.wp_iff]
    exact ⟨rfl, rfl⟩
  · rw [build, Act.wp_bind, Act.wp_update, if_pos rfl, Act.wp_bind, hmatrix, hK.wp_iff]
    exact ⟨rfl, rfl⟩
  · rw [build, Act.wp_bind, Act.wp_update, if_neg Bool.false_ne_true, operator, hjac,
      if_neg Bool.false_ne_true]
    exact ⟨rfl, rfl⟩
  · rw [mulVec_mat]
    exact hdirectional v st

end Problems

section Saddle

/-- The product of both unknowns, and the square of one less one. -/
noncomputable def saddle : Problem Exact 2 :=
  ⟨.outOfPlace (fun u _ => .ok (Vector.ofFn ![u.get 0 * u.get 1, u.get 1 * u.get 1 - 1.0])) none,
    vec 0, .absent⟩

noncomputable def saddlePolynomial : Fin 2 → MvPolynomial (Fin 2) ℝ :=
  ![X 0 * X 1, X 1 * X 1 - C 1]

theorem saddle_realizes :
    saddle.Realizes fun x => WithLp.toLp 2 fun i => eval x.ofLp (saddlePolynomial i) := by
  intro x
  change Except.ok (Vector.ofFn ![(vec x).get 0 * (vec x).get 1,
    (vec x).get 1 * (vec x).get 1 - 1.0]) = _
  congr 1
  ext i hi
  match i, hi with
  | 0, _ => simp [saddlePolynomial, Vector.get]
  | 1, _ => simp [saddlePolynomial, Vector.get]

theorem totalDegree_saddlePolynomial (i : Fin 2) : (saddlePolynomial i).totalDegree ≤ 2 := by
  have hproduct : ∀ j k : Fin 2, (X j * X k : MvPolynomial (Fin 2) ℝ).totalDegree ≤ 2 :=
    fun j k => (totalDegree_mul _ _).trans (by simp [totalDegree_X])
  match i with
  | 0 => exact hproduct 0 1
  | 1 => exact (totalDegree_sub_C_le _ _).trans (hproduct 1 1)

theorem saddlePolynomial_start :
    (fun i => eval ![1, 2] (saddlePolynomial i)) = ![2, 3] := by
  ext i
  fin_cases i
  · simp [saddlePolynomial]
  · simp [saddlePolynomial]
    norm_num

theorem saddlePolynomial_slopes :
    (Matrix.of fun i j => eval ![1, 2] (pderiv j (saddlePolynomial i))) = !![2, 1; 0, 4] := by
  ext i j
  fin_cases i <;> fin_cases j <;> simp [saddlePolynomial, pderiv_X]
  norm_num

/-- From one and two, along three and minus one, the central quotient is exact. -/
theorem differences_exact_saddle :
    ∃ st, (directional saddle ⟨true, .ok (real 1)⟩ (vec !₂[1, 2]) (vec !₂[2, 3])
      (vec !₂[3, -1])).Returns {} (vec !₂[5, -4]) st := by
  obtain ⟨hdirectional, -, -⟩ := differences_exact (d := ⟨true, .ok (real 1)⟩) (u := !₂[1, 2])
    saddle_realizes rfl one_pos (.quadratic _ totalDegree_saddlePolynomial rfl)
  obtain ⟨st, hr⟩ := hdirectional !₂[3, -1] {}
  rw [saddlePolynomial_start, saddlePolynomial_slopes] at hr
  have hproduct : Matrix.toEuclideanLin !![2, 1; 0, 4] !₂[3, -1] = !₂[(5 : ℝ), -4] := by
    ext i
    fin_cases i
    · simp
      norm_num
    · simp
  rw [hproduct] at hr
  exact ⟨st, hr⟩

end Saddle

end Jacobian

end Rootfinder
