import Rootfinder.Proofs.Regions
import Rootfinder.Proofs.Resets

namespace Rootfinder

open Exact Iteration
open Matrix hiding vec single
open TrustRegion (single norm_single apply_single)

variable {n : ℕ}

namespace Exact

/-- A sum is finite only if its summands are. -/
theorem isFinite_of_add {a b : Exact} (h : Scalar.isFinite (a + b) = true) :
    Scalar.isFinite a = true ∧ Scalar.isFinite b = true := by
  obtain ⟨c, hc⟩ := isFinite_iff.mp h
  change Exact.add a b = real c at hc
  cases a <;> cases b <;> simp_all [Exact.add]
  split at hc <;> cases hc

theorem isFinite_of_foldl {xs : List Exact} {c : Exact}
    (h : Scalar.isFinite (xs.foldl (· + ·) c) = true) :
    Scalar.isFinite c = true ∧ ∀ x ∈ xs, Scalar.isFinite x = true := by
  induction xs generalizing c with
  | nil => exact ⟨h, nofun⟩
  | cons x xs ih =>
    obtain ⟨hsum, hrest⟩ := ih h
    obtain ⟨hc, hx⟩ := isFinite_of_add hsum
    exact ⟨hc, List.forall_mem_cons.mpr ⟨hx, hrest⟩⟩

theorem isFinite_of_real_mul {x : ℝ} {b : Exact} (h : Scalar.isFinite (real x * b) = true) :
    Scalar.isFinite b = true := by
  obtain ⟨c, hc⟩ := isFinite_iff.mp h
  change Exact.mul (real x) b = real c at hc
  cases b with
  | real y => exact isFinite_iff.mpr ⟨y, rfl⟩
  | infinite s =>
    simp only [Exact.mul] at hc
    split at hc <;> cases hc
  | undefined => cases hc

/-- A product with a real vector is finite only if the other vector is. -/
theorem allFinite_of_dot {v : EuclideanSpace ℝ (Fin n)} {w : Vec Exact n}
    (h : Scalar.isFinite (Vec.dot (vec v) w) = true) : w.allFinite = true := by
  rw [Vec.dot, Vec.total, ← Vector.foldl_toList] at h
  have hproducts := (isFinite_of_foldl h).2
  rw [Vec.allFinite, Vector.all_eq_true]
  intro i hi
  refine isFinite_of_real_mul (x := v ⟨i, hi⟩) (hproducts _ ?_)
  rw [Vector.mem_toList_iff, Vector.mem_iff_getElem]
  exact ⟨i, hi, by rw [Vector.getElem_zipWith, getElem_vec]⟩

/-- A real matrix takes only finite vectors to finite vectors. -/
theorem allFinite_of_mulVec {A : Matrix (Fin n) (Fin n) ℝ} {w : Vec Exact n}
    (h : ((mat A).mulVec w).allFinite = true) : w.allFinite = true := by
  rw [Vec.allFinite, Vector.all_eq_true] at h
  rw [Vec.allFinite, Vector.all_eq_true]
  intro i hi
  have hrow : (mat A)[i] = vec (WithLp.toLp 2 (A ⟨i, hi⟩)) := Vector.getElem_ofFn hi
  have hi' := h i hi
  rw [Mat.mulVec, Vector.getElem_map, hrow] at hi'
  exact Vector.all_eq_true.mp (allFinite_of_dot hi') i hi

theorem epsilon_eq : (Scalar.epsilon : Exact) = real (1 / 2 ^ 52) := by
  unfold Scalar.epsilon
  generalize 52 = k
  exact TrustRegion.one_div_ofNat_pow k

theorem identity_mat : (Mat.identity n : Mat Exact n n) = mat 1 := by
  ext i hi j hj
  simp [Mat.identity, Vec.unit, mat, Matrix.one_apply, apply_ite real, eq_comm]

section Single

variable {v : Vec Exact 1} {c : ℝ}

theorem get_vec (w : EuclideanSpace ℝ (Fin n)) (i : Fin n) : (vec w).get i = real (w i) :=
  getElem_vec w i i.isLt

theorem get_single (a : ℝ) : (vec (single a)).get 0 = real a := get_vec _ 0

theorem eq_vec_single (h : v.get 0 = real c) : v = vec (single c) := by
  ext i hi
  obtain rfl : i = 0 := by omega
  exact h.trans ((get_single c).symm.trans (Vector.get_eq_getElem ..))

theorem eq_single (w : EuclideanSpace ℝ (Fin 1)) : w = single (w 0) := by
  ext i
  fin_cases i
  rfl

theorem single_inj {a b : ℝ} (h : vec (single a) = vec (single b)) : a = b := by
  have hat := congrArg (Vector.get · 0) h
  simp only [get_single] at hat
  exact Exact.real.inj hat

theorem eq_of_entry (A : Matrix (Fin 1) (Fin 1) ℝ) : A = !![A 0 0] := by
  ext i j
  fin_cases i
  fin_cases j
  rfl

theorem identity_single : (Mat.identity 1 : Mat Exact 1 1) = mat !![1] := by
  rw [identity_mat, eq_of_entry 1, one_apply_eq]

theorem neg_single (a : ℝ) : -single a = single (-a) := by
  ext i
  simp [single]

theorem add_single (a b : ℝ) : single a + single b = single (a + b) := by
  ext i
  simp [single]

theorem sub_single (a b : ℝ) : single a - single b = single (a - b) := by
  ext i
  simp [single]

theorem smul_single (a b : ℝ) : a • single b = single (a * b) := by
  ext i
  simp [single]

theorem dot_single (a b : ℝ) : Vec.dot (vec (single a)) (vec (single b)) = real (a * b) := by
  rw [dot_vec]
  simp [single, PiLp.inner_apply, mul_comm]

end Single

end Exact

namespace Broyden

section Updates

variable (H B : Matrix (Fin n) (Fin n) ℝ) (δ y : Fin n → ℝ)

/-- The good update: the least change to a matrix that makes it take a step to the change seen along
it. -/
noncomputable def goodUpdate : Matrix (Fin n) (Fin n) ℝ :=
  B + (δ ⬝ᵥ δ)⁻¹ • vecMulVec (y - B *ᵥ δ) δ

noncomputable def inverseUpdate : Matrix (Fin n) (Fin n) ℝ :=
  H + (δ ⬝ᵥ H *ᵥ y)⁻¹ • vecMulVec (δ - H *ᵥ y) (δ ᵥ* H)

variable {H B δ y}

theorem dotProduct_self_ne_zero (h : δ ⬝ᵥ H *ᵥ y ≠ 0) : δ ⬝ᵥ δ ≠ 0 := by
  intro hδ
  obtain rfl := dotProduct_self_eq_zero.mp hδ
  exact h (zero_dotProduct _)

/-- Sherman and Morrison: the update of an inverse is inverse to the good update. -/
theorem goodUpdate_mul_inverseUpdate (hB : B * H = 1) (h : δ ⬝ᵥ H *ᵥ y ≠ 0) :
    goodUpdate B δ y * inverseUpdate H δ y = 1 := by
  have hδ := dotProduct_self_ne_zero h
  have hBH : B *ᵥ (δ - H *ᵥ y) = -(y - B *ᵥ δ) := by
    rw [mulVec_sub, mulVec_mulVec, hB, one_mulVec, neg_sub]
  have hcoefficient : (δ ⬝ᵥ δ)⁻¹ - (δ ⬝ᵥ H *ᵥ y)⁻¹ +
      (δ ⬝ᵥ δ)⁻¹ * (δ ⬝ᵥ H *ᵥ y)⁻¹ * (δ ⬝ᵥ (δ - H *ᵥ y)) = 0 := by
    rw [dotProduct_sub]
    field_simp
    ring
  calc goodUpdate B δ y * inverseUpdate H δ y
      = 1 + ((δ ⬝ᵥ δ)⁻¹ - (δ ⬝ᵥ H *ᵥ y)⁻¹ +
          (δ ⬝ᵥ δ)⁻¹ * (δ ⬝ᵥ H *ᵥ y)⁻¹ * (δ ⬝ᵥ (δ - H *ᵥ y))) •
          vecMulVec (y - B *ᵥ δ) (δ ᵥ* H) := by
        rw [goodUpdate, inverseUpdate, add_mul, mul_add, mul_add, hB, mul_smul_comm, mul_vecMulVec,
          hBH, smul_mul_assoc, vecMulVec_mul, smul_mul_smul_comm, vecMulVec_mul_vecMulVec,
          neg_vecMulVec, vecMulVec_smul]
        module
    _ = 1 := by rw [hcoefficient, zero_smul, add_zero]

/-- The updated estimate takes the change of the residual to the step. -/
theorem inverseUpdate_mulVec (h : δ ⬝ᵥ H *ᵥ y ≠ 0) : inverseUpdate H δ y *ᵥ y = δ := by
  rw [inverseUpdate, add_mulVec, smul_mulVec, vecMulVec_mulVec, ← dotProduct_mulVec,
    op_smul_eq_smul, smul_smul, inv_mul_cancel₀ h, one_smul, add_sub_cancel]

/-- The update is invertible, and its inverse is the good update of the inverse. -/
theorem inverseUpdate_eq_inv (hH : IsUnit H) (h : δ ⬝ᵥ H *ᵥ y ≠ 0) :
    IsUnit (inverseUpdate H δ y) ∧ IsUnit (goodUpdate H⁻¹ δ y) ∧
      inverseUpdate H δ y = (goodUpdate H⁻¹ δ y)⁻¹ := by
  have hmul := goodUpdate_mul_inverseUpdate
    (nonsing_inv_mul H ((isUnit_iff_isUnit_det H).mp hH)) h
  exact ⟨.of_mul_eq_one_right _ hmul, .of_mul_eq_one _ hmul, (inv_eq_right_inv hmul).symm⟩

/-- An update that is made is that of an inverse, by a change of the residual that is finite. -/
theorem updated_mat {δ : EuclideanSpace ℝ (Fin n)} {y : Vec Exact n} {K : Mat Exact n n}
    (h : updated (mat H) (vec δ) y = some K) : ∃ η : EuclideanSpace ℝ (Fin n),
      y = vec η ∧ δ.ofLp ⬝ᵥ H *ᵥ η.ofLp ≠ 0 ∧ K = mat (inverseUpdate H δ.ofLp η.ofLp) := by
  simp only [updated] at h
  split at h
  · cases h
  · rename_i hsound
    obtain ⟨hfinite, hgreater⟩ := not_or.mp (mt Bool.or_eq_true_iff.mpr hsound)
    have hdot : Scalar.isFinite (Vec.dot (vec δ) ((mat H).mulVec y)) = true := by
      simpa using hfinite
    obtain ⟨η, rfl⟩ := allFinite_iff.mp (allFinite_of_mulVec (allFinite_of_dot hdot))
    have hinner : Vec.dot (vec δ) ((mat H).mulVec (vec η)) = real (δ.ofLp ⬝ᵥ H *ᵥ η.ofLp) := by
      rw [mulVec_mat, dot_vec, EuclideanSpace.inner_eq_star_dotProduct, star_trivial,
        dotProduct_comm]
      rfl
    have hne : δ.ofLp ⬝ᵥ H *ᵥ η.ofLp ≠ 0 := by
      intro hzero
      refine hgreater (decide_eq_true ?_)
      rw [hinner, hzero, mulVec_mat, euclid_vec, euclid_vec, epsilon_eq]
      change |(0 : ℝ)| ≤ 1 / 2 ^ 52 * (‖δ‖ * ‖H.toEuclideanLin η‖)
      rw [abs_zero]
      positivity
    refine ⟨η, rfl, hne, (Option.some.inj h).symm.trans ?_⟩
    rw [hinner, mulVec_mat, sub_vec, Mat.vecMul, transpose_mat, mulVec_mat]
    ext i hi j hj
    have hright : (Hᵀ.toEuclideanLin δ).ofLp = δ.ofLp ᵥ* H := mulVec_transpose H δ.ofLp
    simp only [mat, Vector.getElem_zipWith, Vector.getElem_ofFn, Vector.getElem_add, scale_vec,
      divide_vec _ hne, getElem_vec, add_real, inverseUpdate, Matrix.add_apply, Matrix.smul_apply,
      vecMulVec_apply, WithLp.ofLp_smul, Pi.smul_apply, hright]
    rfl

/-- In one dimension an update is made unless the step, the estimate or the change is zero. -/
theorem exists_updated_single {h a b : ℝ} (hne : a * (h * b) ≠ 0) : ∃ K,
    updated (mat !![h]) (vec (single a)) (vec (single b)) = some K := by
  refine ⟨_, if_neg ?_⟩
  rw [mulVec_mat, apply_single, dot_single, euclid_vec, euclid_vec, norm_single, norm_single,
    epsilon_eq]
  have hlarge : ¬ |a * (h * b)| ≤ 1 / 2 ^ 52 * (|a| * |h * b|) := by
    rw [← abs_mul]
    have hpos := abs_pos.mpr hne
    nlinarith
  simp only [Bool.or_eq_true, not_or]
  exact ⟨by simp, fun h => hlarge (of_decide_eq_true h)⟩

end Updates

section Runs

open Secant

variable {limit : ℕ} {o : Options Exact} {y x : Iteration Exact n (Memory (Mat Exact n n))}
  {delta : Vec Exact n}

def Regular (it : Iteration Exact n (Memory (Mat Exact n n))) : Prop :=
  ∃ H : Matrix (Fin n) (Fin n) ℝ, it.memory.estimate = mat H ∧ IsUnit H

theorem Regular.congr (h : Regular y) (hm : x.memory = y.memory) : Regular x := by
  rwa [Regular, hm]

theorem regular_identity (h : x.memory.estimate = Mat.identity n) : Regular x :=
  ⟨1, h.trans identity_mat, isUnit_one⟩

theorem Regular.reset (h : Regular y) : Regular (afterReset (plan limit o n) y) := by
  have hestimate := afterReset_estimate (plan limit o n) y
  split at hestimate
  · rwa [Regular, hestimate]
  · exact regular_identity hestimate

/-- An estimate that is updated stays invertible, and so does one that is reset instead. -/
theorem Regular.learned (h : Regular y) (hd : delta.allFinite = true) :
    Regular (learned (plan limit o n) updated y delta) := by
  obtain ⟨H, hestimate, hH⟩ := h
  obtain ⟨δ, rfl⟩ := allFinite_iff.mp hd
  unfold Secant.learned
  split
  · rename_i K hK
    rw [hestimate] at hK
    obtain ⟨η, -, hne, rfl⟩ := updated_mat hK
    exact ⟨_, rfl, (inverseUpdate_eq_inv hH hne).1⟩
  · exact Regular.reset ⟨H, hestimate, hH⟩

theorem keeps_advance_regular : (advance limit o).Keeps (Regular (n := n)) := by
  apply Act.keeps_of_wp
  intro y hy
  rw [advance, Act.wp_bind, Act.wp_read, wp_follow_iff]
  split
  · rename_i hfinite
    split
    · exact hy.learned hfinite
    · exact hy.congr rfl
  · exact hy.reset

/-- No request takes the inverse from the estimate, not even one that raises. -/
theorem keeps_serve_regular (r : Request Exact) :
    (serve (method limit o n) r).Keeps Regular := by
  refine keeps_serve ?_ (fun start parameter => Act.keeps_of_wp fun it h => ?_) r
  · exact keeps_step_of_advance keeps_advance_regular (fun it s h => h.congr rfl)
      fun it code h => h.congr rfl
  · refine (wp_reinit_begun start parameter).mono (fun _ x hx => ?_) fun e x hx => ?_
    · obtain ⟨P, -, -, rfl⟩ := hx
      exact regular_identity rfl
    · obtain rfl | ⟨P, -, -, rfl⟩ := hx
      · exact h
      · exact h.congr rfl

end Runs

/-- The estimate of Broyden's method is an inverse. Whatever is asked of a run, on any problem, it
is an invertible matrix; and a step that is counted and registers no reset was finite, changed the
residual by finite numbers, and divided by a number that is not zero to make of the estimate the
inverse of the good update of its inverse, which takes the change of the residual to the step. -/
theorem estimate_stays_inverse {limit : ℕ} {o : Options Exact} {P : Problem Exact n}
    {it₀ it : Iteration Exact n (Secant.Memory (Mat Exact n n))}
    (h₀ : (start (method limit o n) P).Returns () it₀ ())
    (h : Act.Reached (serve (method limit o n)) (fun _ => True) it₀ it) :
    ∃ H : Matrix (Fin n) (Fin n) ℝ, it.memory.estimate = mat H ∧ IsUnit H ∧
      ∀ x, (step (method limit o n)).Returns it () x → x.stats.nsteps = it.stats.nsteps + 1 →
        x.memory.resets = it.memory.resets → ∃ (δ η : EuclideanSpace ℝ (Fin n)) (K : Matrix _ _ ℝ),
          x.u = it.u + vec δ ∧ x.fu - it.fu = vec η ∧ x.memory.estimate = mat K ∧
          δ.ofLp ⬝ᵥ H *ᵥ η.ofLp ≠ 0 ∧ δ.ofLp ⬝ᵥ δ.ofLp ≠ 0 ∧
          IsUnit (goodUpdate H⁻¹ δ.ofLp η.ofLp) ∧ K = (goodUpdate H⁻¹ δ.ofLp η.ofLp)⁻¹ ∧
          K *ᵥ η.ofLp = δ.ofLp := by
  obtain ⟨-, rfl⟩ := h₀.wp_iff.mp wp_start_begun
  obtain ⟨H, hestimate, hH⟩ : Regular it :=
    h.keeps (regular_identity rfl) fun r _ => keeps_serve_regular r
  refine ⟨H, hestimate, hH, fun x hx hcounted hresets => ?_⟩
  obtain ⟨-, rfl⟩ | ⟨-, w, hl, rfl⟩ := step_cases hx
  · rw [tested_stats] at hcounted
    omega
  · rw [tested_memory] at hresets
    obtain ⟨hfinite, hu, hfu, -, hupdated⟩ := (stride_of_lap hl).2 hresets
    obtain ⟨δ, hδ⟩ := allFinite_iff.mp hfinite
    rw [hδ] at hu
    rw [hδ, hestimate] at hupdated
    obtain ⟨η, hη, hne, hK⟩ := updated_mat hupdated
    obtain ⟨-, hgood, hinverse⟩ := inverseUpdate_eq_inv hH hne
    refine ⟨δ, η, _, by rw [tested_u, hu], by rw [tested_fu, hη], by rw [tested_memory, hK], hne,
      dotProduct_self_ne_zero hne, hgood, hinverse, inverseUpdate_mulVec hne⟩

end Broyden

namespace Secant

section Halving

/-- Half of the unknown, to be followed from one to zero. -/
noncomputable def halving : Problem Exact 1 :=
  ⟨.outOfPlace (fun u _ => .ok (Vec.scale 0.5 u)) none, vec (single 1), .absent⟩

theorem halving_residual (c : ℝ) (out : Vec Exact 1) :
    halving.residualInto (vec (single c)) out = ⟨vec (single (1 / 2 * c)), none⟩ := by
  change Filled.mk (Vec.scale 0.5 _) none = _
  rw [half_eq, scale_vec, smul_single]

/-- At most five steps, to a root and no nearer. -/
noncomputable def exactly : Options Exact := ⟨real 0, 5, Norm.inf⟩

/-- Away from zero, the test lets a state pass. -/
theorem tested_exactly {σ : Type} {m : Method Exact 1 σ} (hm : m.options = exactly)
    {it : Iteration Exact 1 σ} {c : ℝ} (hrun : it.terminated = false) (hc : c ≠ 0)
    (hfu : it.fu = vec (single c)) (hsteps : it.stats.nsteps < 5) : it.tested m = it := by
  have hnorm : Norm.inf.of it.fu = real |c| := by
    rw [hfu, Norm.of, toList_vec]
    change (if (0.0 : Exact) < real |c| then real |c| else 0.0) = real |c|
    rw [zero_eq, if_pos ((lt_real _ _).mpr (abs_pos.mpr hc))]
  have hverdict : it.verdict exactly = none := by
    have hfinite : Scalar.isFinite (real |c|) = true := isFinite_iff.mpr ⟨_, rfl⟩
    have hgreater : ¬ real |c| ≤ real 0 := by simpa using hc
    simp only [verdict, exactly, hnorm, hfinite, hgreater, Bool.not_true, Bool.false_eq_true,
      if_false]
    exact if_neg (not_le.mpr hsteps)
  rw [tested, hm, hverdict, if_neg (by simp [hrun])]
  rfl

variable {ε : Type} {plan : Plan Exact ε} {m : Method Exact 1 (Memory ε)} {K : ε}
  {updated : ε → Vec Exact 1 → Vec Exact 1 → Option ε}

variable (m) in
/-- The run that a method begins on it. -/
noncomputable def halvingRun : Iteration Exact 1 (Memory ε) :=
  begun m halving (halving.residualInto halving.start (Vec.zero 1)).array

theorem returns_start_halving : (start m halving).Returns () (halvingRun m) () :=
  returns_start (congrArg Filled.fault (halving_residual 1 (Vec.zero 1)))

theorem halvingRun_fu : (halvingRun m).fu = vec (single (1 / 2)) := by
  refine (congrArg Filled.array (halving_residual 1 (Vec.zero 1))).trans ?_
  rw [mul_one]

/-- A first step that goes halfway to zero is counted and learned from. -/
theorem step_halving (hm : m.options = exactly)
    (hlap : ((halvingRun m).problem.residualInto ((halvingRun m).u + vec (single (-(1 / 2))))
        (halvingRun m).fu).fault = none →
      (lap m).Returns (halvingRun m) () { learned plan updated (halvingRun m)
        (vec (single (-(1 / 2)))) with stats := (halvingRun m).stats.countResidual.countStep })
    (hK : updated (halvingRun m).memory.estimate (vec (single (-(1 / 2))))
      (vec (single (-(1 / 4)))) = some K) :
    ∃ x, (step m).Returns (halvingRun m) () x ∧ x.u = vec (single (1 / 2)) ∧
      x.fu = vec (single (1 / 4)) ∧ x.stats.nsteps = 1 ∧
      x.memory = ⟨(halvingRun m).memory.resets, K⟩ := by
  have hu : (halvingRun m).u + vec (single (-(1 / 2))) = vec (single (1 / 2)) := by
    change vec (single 1) + _ = _
    rw [add_vec, add_single]
    norm_num
  have hfu : (halvingRun m).problem.residualInto (vec (single (1 / 2))) (halvingRun m).fu =
      ⟨vec (single (1 / 4)), none⟩ := by
    refine (halving_residual _ _).trans ?_
    norm_num
  have hchange : (moved (halvingRun m) (vec (single (-(1 / 2))))).fu - (halvingRun m).fu =
      vec (single (-(1 / 4))) := by
    rw [moved, hu, hfu, halvingRun_fu, sub_vec, sub_single]
    norm_num
  have hlearned := hlap (by rw [hu, hfu])
  rw [learned_of_updated (by rw [hchange]; exact hK)] at hlearned
  have hrun : ((halvingRun m).tested m).terminated = false := by
    rw [tested_exactly hm (c := 1 / 2) rfl (by norm_num) halvingRun_fu
      (show (0 : ℤ) < 5 by decide)]
    rfl
  refine ⟨_, returns_step_lap hrun hlearned, ?_⟩
  rw [tested_u, tested_fu, tested_stats, tested_memory]
  refine ⟨hu, ?_, rfl, rfl⟩
  rw [moved, hu, hfu]

end Halving

end Secant

namespace Broyden

open Secant (halving exactly halvingRun)

theorem step_halving : ∃ x,
    (step (method 5 exactly 1)).Returns (halvingRun (method 5 exactly 1)) () x ∧
      x.u = vec (single (1 / 2)) ∧ x.fu = vec (single (1 / 4)) ∧ x.stats.nsteps = 1 ∧
      x.memory.resets = 0 := by
  obtain ⟨K, hK⟩ := exists_updated_single (h := 1) (a := -(1 / 2)) (b := -(1 / 4)) (by norm_num)
  have hd : delta (halvingRun (method 5 exactly 1)).memory.estimate
      (halvingRun (method 5 exactly 1)).fu = vec (single (-(1 / 2))) := by
    rw [Secant.halvingRun_fu]
    change -((Mat.identity 1 : Mat Exact 1 1).mulVec _) = _
    rw [identity_single, mulVec_mat, apply_single, neg_vec, neg_single, one_mul]
  rw [← identity_single] at hK
  obtain ⟨x, hx, hu, hfu, hsteps, hm⟩ := Secant.step_halving (m := method 5 exactly 1) rfl
    (fun hfault => returns_lap hd (allFinite_vec _) hfault) hK
  exact ⟨x, hx, hu, hfu, hsteps, by rw [hm]; rfl⟩

/-- Halfway to zero, the estimate is twice what it was. -/
theorem estimate_stays_inverse_halving : ∃ x : Iteration Exact 1 (Secant.Memory (Mat Exact 1 1)),
    (start (method 5 exactly 1) halving).Returns () (halvingRun (method 5 exactly 1)) () ∧
    (step (method 5 exactly 1)).Returns (halvingRun (method 5 exactly 1)) () x ∧
    x.stats.nsteps = (halvingRun (method 5 exactly 1)).stats.nsteps + 1 ∧
    x.memory.resets = (halvingRun (method 5 exactly 1)).memory.resets ∧
    x.memory.estimate = mat !![2] := by
  obtain ⟨x, hx, hu, hfu, hsteps, hresets⟩ := step_halving
  refine ⟨x, Secant.returns_start_halving, hx, hsteps, hresets, ?_⟩
  obtain ⟨H, -, -, hstep⟩ := estimate_stays_inverse Secant.returns_start_halving .start
  obtain ⟨δ, η, K, hδ, hη, hK, -, -, -, -, hsecant⟩ := hstep x hx hsteps hresets
  have hstepped : δ 0 = -(1 / 2) := by
    have hat : vec (single (1 / 2)) = vec (single 1) + vec δ := hu.symm.trans hδ
    rw [eq_single δ, add_vec, add_single] at hat
    linarith [single_inj hat]
  have hchanged : η 0 = -(1 / 4) := by
    rw [hfu, Secant.halvingRun_fu, eq_single η, sub_vec, sub_single] at hη
    linarith [single_inj hη]
  have hentry : K 0 0 * η 0 = δ 0 := by simpa [Matrix.mulVec, dotProduct] using congrFun hsecant 0
  rw [hstepped, hchanged] at hentry
  have htwo : K 0 0 = 2 := by linarith
  rw [hK, eq_of_entry K, htwo]

end Broyden

end Rootfinder
