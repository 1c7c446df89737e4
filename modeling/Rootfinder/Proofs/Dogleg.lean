import Rootfinder.Method.TrustRegion
import Rootfinder.Proofs.Exact
import Rootfinder.Proofs.Quitting

namespace Rootfinder.TrustRegion

section Quadratic

variable {α : Type} [Scalar α] {n : Nat}

/-- The leading coefficient of the squared distance from the centre, on the way from the Cauchy
point to the Newton step. -/
def lead (cauchy newton : Vec α n) : α := Vec.dot (newton - cauchy) (newton - cauchy)

/-- The share of the way after which the sphere is reached, as the quadratic formula has it. -/
def share (cauchy newton : Vec α n) (radius : α) : α :=
  let a := lead cauchy newton
  let b := 2.0 * Vec.dot cauchy (newton - cauchy)
  let c := Vec.dot cauchy cauchy - Scalar.pow radius 2.0
  if 0.0 < a then (-b + Scalar.sqrt (Scalar.larger (b * b - 4.0 * a * c) 0.0)) / (2.0 * a)
  else 0.0

/-- The share that is gone is confined to the way itself. -/
theorem between_eq (cauchy newton : Vec α n) (radius : α) :
    between cauchy newton radius = cauchy +
      Vec.scale (Scalar.smaller (Scalar.larger (share cauchy newton radius) 0.0) 1.0)
        (newton - cauchy) := rfl

end Quadratic

noncomputable def root (a b c : ℝ) : ℝ := (-b + √(max (discrim a b c) 0)) / (a + a)

theorem root_eq (a b c : ℝ) : root a b c = (-b + √(max (b * b - 4 * a * c) 0)) / (2 * a) := by
  rw [root, discrim, sq, two_mul]

section Root

variable {a b c : ℝ} (ha : 0 < a) (hc : c ≤ 0)

include ha hc

theorem sq_le_discriminant : b * b ≤ b * b - 4 * a * c := by
  have hac : a * c ≤ 0 := mul_nonpos_of_nonneg_of_nonpos ha.le hc
  linarith

theorem root_eq_zero : a * (root a b c * root a b c) + b * root a b c + c = 0 := by
  have hd : 0 ≤ b * b - 4 * a * c := (mul_self_nonneg b).trans (sq_le_discriminant ha hc)
  have hs : discrim a b c = √(b * b - 4 * a * c) * √(b * b - 4 * a * c) := by
    rw [Real.mul_self_sqrt hd, discrim, sq]
  rw [quadratic_eq_zero_iff ha.ne' hs]
  exact .inl (by rw [root_eq, max_eq_left hd])

theorem root_nonneg : 0 ≤ root a b c := by
  rw [root_eq]
  apply div_nonneg _ (by linarith)
  have hb : b ≤ √(max (b * b - 4 * a * c) 0) :=
    Real.le_sqrt_of_sq_le (le_max_of_le_left (by rw [sq]; exact sq_le_discriminant ha hc))
  linarith

/-- The root is at most one if the quadratic is not negative there. -/
theorem root_le_one (h : 0 ≤ a + b + c) : root a b c ≤ 1 := by
  have hab : 0 ≤ 2 * a + b := by linarith
  have hac : 0 ≤ a * (a + b + c) := mul_nonneg ha.le h
  have hs : √(max (b * b - 4 * a * c) 0) ≤ 2 * a + b := by
    apply Real.sqrt_le_iff.mpr ⟨hab, max_le _ (sq_nonneg _)⟩
    nlinarith only [hac]
  rw [root_eq, div_le_one (by linarith)]
  linarith

end Root

variable {n : ℕ} (J : Matrix (Fin n) (Fin n) ℝ) (F : EuclideanSpace ℝ (Fin n))

open Exact

/-- The squared length along a straight way is a quadratic in the share of it. -/
theorem norm_sq_along (c d : EuclideanSpace ℝ (Fin n)) (x : ℝ) :
    ‖c + x • d‖ ^ 2 = ‖d‖ ^ 2 * (x * x) + 2 * inner ℝ c d * x + ‖c‖ ^ 2 := by
  rw [norm_add_sq_real, real_inner_smul_right, norm_smul, mul_pow, Real.norm_eq_abs, sq_abs]
  ring

section Sphere

variable {c p : EuclideanSpace ℝ (Fin n)} {r : ℝ}

theorem lead_vec : lead (vec c) (vec p) = real (‖p - c‖ ^ 2) := by simp [lead]

theorem share_vec (h : 0 < ‖p - c‖) (hr : 0 ≤ r) :
    share (vec c) (vec p) (real r) =
      real (root (‖p - c‖ ^ 2) (2 * inner ℝ c (p - c)) (‖c‖ ^ 2 - r ^ 2)) := by
  have ha : 0 < ‖p - c‖ ^ 2 := by positivity
  simp only [share, lead_vec, sub_vec, dot_vec, real_inner_self_eq_norm_sq, zero_eq, two_eq,
    four_eq, pow_two_real hr, mul_real, sub_real, neg_real, larger_real, lt_real, if_pos ha,
    sqrt_real (le_max_right _ _), add_real]
  rw [div_real _ (by linarith), root_eq]

theorem apart (hc : ‖c‖ < r) (hp : r < ‖p‖) : 0 < ‖p - c‖ := by
  have := norm_sub_norm_le p c
  linarith

/-- A way that starts inside the ball and ends outside meets the sphere at the root. -/
theorem meets_sphere (hc : ‖c‖ < r) (hp : r < ‖p‖) :
    ∃ x, share (vec c) (vec p) (real r) = real x ∧ 0 ≤ x ∧ x ≤ 1 ∧ ‖c + x • (p - c)‖ = r := by
  have hd := apart hc hp
  have ha : 0 < ‖p - c‖ ^ 2 := by positivity
  have hstart : ‖c‖ ^ 2 - r ^ 2 ≤ 0 := by
    have := pow_le_pow_left₀ (norm_nonneg c) hc.le 2
    linarith
  have hr : 0 ≤ r := (norm_nonneg c).trans hc.le
  have hend : 0 ≤ ‖p - c‖ ^ 2 + 2 * inner ℝ c (p - c) + (‖c‖ ^ 2 - r ^ 2) := by
    have hpc := norm_sq_along c (p - c) 1
    rw [one_smul, add_sub_cancel] at hpc
    have := pow_le_pow_left₀ hr hp.le 2
    linarith
  refine ⟨_, share_vec hd hr, root_nonneg ha hstart, root_le_one ha hstart hend, ?_⟩
  rw [← pow_left_inj₀ (norm_nonneg _) hr two_ne_zero, norm_sq_along]
  have := root_eq_zero ha hstart (b := 2 * inner ℝ c (p - c))
  linarith

end Sphere

section Path

/-- The gradient of the model at the iterate. -/
noncomputable def gradient : EuclideanSpace ℝ (Fin n) := J.transpose.toEuclideanLin F

/-- How far the model decreases along the gradient, as a multiple of it. -/
noncomputable def descent : ℝ :=
  ‖gradient J F‖ ^ 2 / ‖J.toEuclideanLin (gradient J F)‖ ^ 2

/-- The least point of the model along the gradient. -/
noncomputable def cauchyPoint : EuclideanSpace ℝ (Fin n) := -descent J F • gradient J F

variable {J F}

theorem gradient_mat : (mat J).transpose.mulVec (vec F) = vec (gradient J F) := by simp [gradient]

theorem inner_gradient (s : EuclideanSpace ℝ (Fin n)) :
    inner ℝ (gradient J F) s = inner ℝ F (J.toEuclideanLin s) := inner_transpose F s J

/-- A gradient that is not zero changes the model. -/
theorem image_gradient_pos (hg : gradient J F ≠ 0) :
    0 < ‖J.toEuclideanLin (gradient J F)‖ := by
  apply norm_pos_iff.mpr
  intro himage
  have hzero := inner_gradient (J := J) (F := F) (gradient J F)
  rw [himage, inner_zero_right] at hzero
  exact hg (inner_self_eq_zero.mp hzero)

theorem descent_pos (hg : gradient J F ≠ 0) : 0 < descent J F := by
  have hsize := norm_pos_iff.mpr hg
  have himage := image_gradient_pos hg
  unfold descent
  positivity

theorem cauchyLength_mat (hg : gradient J F ≠ 0) :
    cauchyLength (mat J) (vec (gradient J F)) = real (descent J F) := by
  have hpos : 0 < ‖J.toEuclideanLin (gradient J F)‖ ^ 2 := pow_pos (image_gradient_pos hg) 2
  simp only [cauchyLength, mulVec_mat, dot_vec, real_inner_self_eq_norm_sq, zero_eq, two_eq,
    lt_real, if_pos hpos, euclid_vec, pow_two_real (norm_nonneg _), div_real _ hpos.ne', descent]

theorem norm_cauchyPoint (hg : gradient J F ≠ 0) :
    ‖cauchyPoint J F‖ = descent J F * ‖gradient J F‖ := by
  rw [cauchyPoint, neg_smul, norm_neg, norm_smul, Real.norm_of_nonneg (descent_pos hg).le]

variable (J F)

/-- The ways the dogleg step goes: to a Newton step inside the ball; nowhere, or along the Newton
step to the sphere, where the gradient is zero; against the gradient to the sphere, without a
Newton step or with the Cauchy point outside; or over the Cauchy point towards the Newton step. -/
inductive Way (r : ℝ) : Option (EuclideanSpace ℝ (Fin n)) → EuclideanSpace ℝ (Fin n) → Prop where
  | newton {p : EuclideanSpace ℝ (Fin n)} (hp : ‖p‖ ≤ r) : Way r (some p) p
  | rest (hg : gradient J F = 0) : Way r none 0
  | along {p : EuclideanSpace ℝ (Fin n)} (hg : gradient J F = 0) (hp : r < ‖p‖) :
    Way r (some p) ((r / ‖p‖) • p)
  | steepest {newton : Option (EuclideanSpace ℝ (Fin n))} (hg : gradient J F ≠ 0)
    (hn : ∀ p ∈ newton, r < ‖p‖ ∧ r ≤ ‖cauchyPoint J F‖) :
    Way r newton (-(r / ‖gradient J F‖) • gradient J F)
  | bend {p : EuclideanSpace ℝ (Fin n)} {x : ℝ} (hg : gradient J F ≠ 0) (hp : r < ‖p‖)
    (hc : ‖cauchyPoint J F‖ < r) (hx : share (vec (cauchyPoint J F)) (vec p) (real r) = real x)
    (h0 : 0 ≤ x) (h1 : x ≤ 1) (hs : ‖cauchyPoint J F + x • (p - cauchyPoint J F)‖ = r) :
    Way r (some p) (cauchyPoint J F + x • (p - cauchyPoint J F))

variable {J F} {r : ℝ}

theorem dogleg_none : ∃ s, dogleg (mat J) (vec F) (real r) none = vec s ∧ Way J F r none s := by
  simp only [dogleg, gradient_mat, euclid_vec, zero_eq, beq_real, norm_eq_zero, decide_eq_true_eq]
  by_cases hg : gradient J F = 0
  · exact ⟨0, by rw [if_pos hg, zero_vec], .rest hg⟩
  · refine ⟨_, ?_, .steepest hg nofun⟩
    rw [if_neg hg, div_real _ (norm_ne_zero_iff.mpr hg), neg_real, scale_vec]

theorem dogleg_some (hr : 0 < r) (p : EuclideanSpace ℝ (Fin n)) :
    ∃ s, dogleg (mat J) (vec F) (real r) (some (vec p)) = vec s ∧ Way J F r (some p) s := by
  simp only [dogleg, gradient_mat, euclid_vec, le_real, zero_eq, beq_real, norm_eq_zero,
    decide_eq_true_eq]
  by_cases hp : ‖p‖ ≤ r
  · exact ⟨p, if_pos hp, .newton hp⟩
  rw [if_neg hp]
  replace hp := not_le.mp hp
  by_cases hg : gradient J F = 0
  · refine ⟨_, ?_, .along hg hp⟩
    rw [if_pos hg, div_real _ (hr.trans hp).ne', map_mul_vec]
  rw [if_neg hg]
  simp only [cauchyLength_mat hg, mul_real, le_real, ← norm_cauchyPoint hg]
  by_cases hc : r ≤ ‖cauchyPoint J F‖
  · refine ⟨_, ?_, .steepest hg ?_⟩
    · rw [if_pos hc, div_real _ (norm_ne_zero_iff.mpr hg), neg_real, scale_vec]
    · intro q hq
      obtain rfl := Option.mem_some.mp hq
      exact ⟨hp, hc⟩
  · rw [if_neg hc]
    replace hc := not_le.mp hc
    obtain ⟨x, hx, h0, h1, hs⟩ := meets_sphere hc hp
    refine ⟨_, ?_, .bend hg hp hc hx h0 h1 hs⟩
    rw [neg_real, scale_vec, ← cauchyPoint, between_eq, hx, zero_eq, one_eq, larger_real,
      smaller_real, max_eq_left h0, min_eq_left h1, sub_vec, scale_vec, add_vec]

/-- A real radius has a square, so that the step is found. -/
theorem doglegStep_real (J : Mat Exact n n) (fu : Vec Exact n) (newton : Option (Vec Exact n)) :
    doglegStep J fu (real r) newton = .ok (dogleg J fu (real r) newton) := by
  have hfits : tooLarge (real r) = false := rfl
  rw [doglegStep, hfits, Bool.and_false, if_neg Bool.false_ne_true]

theorem doglegStep_way (hr : 0 < r) (newton : Option (EuclideanSpace ℝ (Fin n))) :
    ∃ s, doglegStep (mat J) (vec F) (real r) (newton.map vec) = .ok (vec s) ∧
      Way J F r newton s := by
  cases newton with
  | none =>
    obtain ⟨s, hs, hway⟩ := dogleg_none (J := J) (F := F) (r := r)
    exact ⟨s, by rw [doglegStep_real, Option.map_none, hs], hway⟩
  | some p =>
    obtain ⟨s, hs, hway⟩ := dogleg_some hr p
    exact ⟨s, by rw [doglegStep_real, Option.map_some, hs], hway⟩

/-- The step goes to the sphere, to the Newton step, or nowhere. -/
theorem Way.reaches {newton : Option (EuclideanSpace ℝ (Fin n))} {s : EuclideanSpace ℝ (Fin n)}
    (h : Way J F r newton s) (hr : 0 < r) : ‖s‖ ≤ r ∧
      (‖s‖ = r ∨ newton = some s ∨ newton = none ∧ gradient J F = 0 ∧ s = 0) := by
  cases h with
  | newton hp => exact ⟨hp, .inr (.inl rfl)⟩
  | rest hg => exact ⟨norm_zero.trans_le hr.le, .inr (.inr ⟨rfl, hg, rfl⟩)⟩
  | @along p hg hp =>
    have hs : ‖(r / ‖p‖) • p‖ = r := by
      rw [norm_smul, Real.norm_of_nonneg (by positivity), div_mul_cancel₀ _ (hr.trans hp).ne']
    exact ⟨hs.le, .inl hs⟩
  | steepest hg hn =>
    have hs : ‖-(r / ‖gradient J F‖) • gradient J F‖ = r := by
      rw [neg_smul, norm_neg, norm_smul, Real.norm_of_nonneg (by positivity),
        div_mul_cancel₀ _ (norm_ne_zero_iff.mpr hg)]
    exact ⟨hs.le, .inl hs⟩
  | bend hg hp hc hx h0 h1 hs => exact ⟨hs.le, .inl hs⟩

theorem bends_some {p : EuclideanSpace ℝ (Fin n)} :
    bends (mat J) (vec F) (real r) (some (vec p)) = true ↔
      r < ‖p‖ ∧ gradient J F ≠ 0 ∧ ‖cauchyPoint J F‖ < r := by
  simp only [bends, Option.any_some, gradient_mat, euclid_vec, zero_eq, beq_real, norm_eq_zero,
    le_real, Bool.not_eq_true', Bool.or_eq_false_iff, decide_eq_false_iff_not, not_le]
  by_cases hg : gradient J F = 0
  · simp [hg]
  · simp only [cauchyLength_mat hg, mul_real, le_real, ← norm_cauchyPoint hg, not_le, and_assoc,
      ne_eq]

/-- Where the step bends, the quadratic is one, and its root lies on the way to the Newton step. -/
theorem Way.bends {newton : Option (EuclideanSpace ℝ (Fin n))} {s : EuclideanSpace ℝ (Fin n)}
    (h : Way J F r newton s)
    (hb : TrustRegion.bends (mat J) (vec F) (real r) (newton.map vec) = true) :
    ∃ p a x, newton = some p ∧ lead (vec (cauchyPoint J F)) (vec p) = real a ∧ 0 < a ∧
      share (vec (cauchyPoint J F)) (vec p) (real r) = real x ∧ 0 ≤ x ∧ x ≤ 1 ∧
      s = cauchyPoint J F + x • (p - cauchyPoint J F) := by
  cases h with
  | newton hp => exact absurd (bends_some.mp hb).1 (not_lt.mpr hp)
  | rest hg => cases hb
  | along hg hp => exact absurd hg (bends_some.mp hb).2.1
  | @steepest newton hg hn =>
    cases newton with
    | none => cases hb
    | some p => exact absurd (bends_some.mp hb).2.2 (not_lt.mpr (hn p rfl).2)
  | @bend p x hg hp hc hx h0 h1 hs =>
    exact ⟨p, _, x, rfl, lead_vec, pow_pos (apart hc hp) 2, hx, h0, h1, rfl⟩

end Path

/-- A dogleg step stays in the region. Whatever the linear solver found, exact or not or nothing at
all, the step reaches the sphere unless it is the Newton step itself, or there is none and the
gradient is zero, where the step is zero. Where it goes between the Cauchy point and the Newton
step, the leading coefficient of the quadratic is positive, and the share of the way that the
formula gives is between zero and one before it is confined to that. -/
theorem dogleg_stays_in_region {r : ℝ} (hr : 0 < r)
    (newton : Option (EuclideanSpace ℝ (Fin n))) :
    ∃ s, doglegStep (mat J) (vec F) (real r) (newton.map vec) = .ok (vec s) ∧ ‖s‖ ≤ r ∧
      (‖s‖ = r ∨ newton = some s ∨ newton = none ∧ gradient J F = 0 ∧ s = 0) ∧
      (bends (mat J) (vec F) (real r) (newton.map vec) = true →
        ∃ p a x, newton = some p ∧ lead (vec (cauchyPoint J F)) (vec p) = real a ∧ 0 < a ∧
          share (vec (cauchyPoint J F)) (vec p) (real r) = real x ∧ 0 ≤ x ∧ x ≤ 1 ∧
          s = cauchyPoint J F + x • (p - cauchyPoint J F)) := by
  obtain ⟨s, hs, hway⟩ := doglegStep_way (J := J) (F := F) hr newton
  obtain ⟨hle, hends⟩ := hway.reaches hr
  exact ⟨s, hs, hle, hends, hway.bends⟩

/-- A vector with one component. -/
noncomputable def single (x : ℝ) : EuclideanSpace ℝ (Fin 1) :=
  (EuclideanSpace.equiv (Fin 1) ℝ).symm fun _ => x

theorem norm_single (x : ℝ) : ‖single x‖ = |x| := by
  simp [single, EuclideanSpace.norm_eq, Real.sqrt_sq_eq_abs]

theorem apply_single (a x : ℝ) :
    (!![a] : Matrix (Fin 1) (Fin 1) ℝ).toEuclideanLin (single x) = single (a * x) := by
  ext i
  fin_cases i
  simp [single]

/-- A Newton step that is too long and not exact, with the Cauchy point inside the ball. -/
theorem dogleg_stays_in_region_inexact : (0 : ℝ) < 2 ∧ ∃ s,
    doglegStep (mat !![1]) (vec (single 1)) (real 2) (some (vec (single (-3)))) = .ok (vec s) ∧
      ‖s‖ = 2 := by
  have hr : (0 : ℝ) < 2 := by norm_num
  obtain ⟨s, hs, hle, hends, -⟩ :=
    dogleg_stays_in_region !![1] (single 1) hr (some (single (-3)))
  refine ⟨hr, s, hs, hends.resolve_right ?_⟩
  rintro (hp | ⟨hp, -⟩)
  · rw [← Option.some.inj hp, norm_single] at hle
    norm_num at hle
  · cases hp

section Search

variable {α : Type} [Scalar α] {l : Linearization α}

def search (l : Linearization α) (J : Mat α n n) :
    Act α (Iteration α n (Memory α n)) (Vec α n) := do
  let newton ← newtonStep l J
  let it ← Act.read
  Act.ofExcept (doglegStep J it.fu it.memory.radius newton)

theorem advance_eq (scheme : Scheme) (prm : Params α) (o : Options α) :
    (advance scheme prm l o : Act α (Iteration α n (Memory α n)) Unit) = (do
      let J ← jacobian l
      let s ← search l J
      if s.allFinite then attemptStep scheme prm l o J s
      else Iteration.terminate (name scheme) o.norm .failure) := by
  simp only [advance, search, bind_assoc]

/-- Of what the linear solver finds, only a finite vector is taken for a Newton step. -/
theorem wp_newtonStep_finite (J : Mat α n n) (y : Iteration α n (Memory α n)) :
    (newtonStep l J).wp (fun newton _ => ∀ s ∈ newton, s.allFinite = true)
      (fun _ _ => True) y := by
  rw [newtonStep, Act.wp_bind, Act.wp_read, Act.wp_bind]
  refine Act.wp_of_forall _ (fun found z => ?_) fun _ _ => trivial
  cases found with
  | error e =>
    by_cases hk : e.kind = .linearAlgebra
    · simp only [hk, if_true, Act.wp_pure]
      exact fun s hs => absurd hs (Option.not_mem_none s)
    · simp only [hk, if_false, Act.wp_raise]
  | ok s =>
    by_cases hs : s.allFinite = true
    · simp [hs]
    · simp [hs]

/-- Whatever the linear solver does, the dogleg step goes one of the ways. -/
theorem search_way {l : Linearization Exact} {y : Iteration Exact n (Memory Exact n)} {r : ℝ}
    (hr : 0 < r) (hfu : y.fu = vec F) (hradius : y.memory.radius = real r) :
    (search l (mat J)).wp (fun s _ => ∃ newton v, s = vec v ∧ Way J F r newton v)
      (fun _ _ => True) y := by
  have hpoised : (newtonStep l (mat J)).wp (fun _ => Poised y) (fun _ _ => True) y :=
    ((keeps_newtonStep_poised (mat J)).wp ⟨.refl y, rfl, rfl⟩).mono (fun _ _ h => h)
      fun _ _ _ => trivial
  rw [search, Act.wp_bind]
  refine ((wp_newtonStep_finite (mat J) y).and hpoised).mono (fun newton z hz => ?_)
    fun _ _ _ => trivial
  obtain ⟨hfinite, hz⟩ := hz
  obtain ⟨found, rfl⟩ : ∃ found, newton = Option.map vec found := by
    cases newton with
    | none => exact ⟨none, rfl⟩
    | some s =>
      obtain ⟨v, rfl⟩ := allFinite_iff.mp (hfinite s rfl)
      exact ⟨some v, rfl⟩
  rw [Act.wp_bind, Act.wp_read, hz.fu, hz.radius, hfu, hradius]
  obtain ⟨v, hv, hway⟩ := doglegStep_way (J := J) (F := F) hr found
  rw [hv, Act.wp_ofExcept_ok]
  exact ⟨found, v, rfl, hway⟩

end Search

section Decrease

/-- The halved square that the step is to reduce, as the linear model has it. -/
noncomputable def model (s : EuclideanSpace ℝ (Fin n)) : ℝ :=
  0.5 * ‖F + J.toEuclideanLin s‖ ^ 2

/-- The Cauchy point, or the point of the sphere before it. -/
noncomputable def clippedCauchy (r : ℝ) : EuclideanSpace ℝ (Fin n) :=
  -min (descent J F) (r / ‖gradient J F‖) • gradient J F

variable {J F} {r : ℝ} {s : EuclideanSpace ℝ (Fin n)}

theorem model_eq : model J F s = 1 / 2 * ‖F + J.toEuclideanLin s‖ ^ 2 := by
  rw [model]
  norm_num

theorem loss_vec (v : EuclideanSpace ℝ (Fin n)) : loss (vec v) = real (1 / 2 * ‖v‖ ^ 2) := by
  rw [loss, half_eq, dot_vec, real_inner_self_eq_norm_sq, mul_real]

/-- The reduction that is predicted for a step is that of the model. -/
theorem predicted_real : loss (vec F) - loss (vec F + (mat J).mulVec (vec s)) =
    real (model J F 0 - model J F s) := by
  rw [mulVec_mat, add_vec, loss_vec, loss_vec, sub_real, model_eq, model_eq, map_zero, add_zero]

/-- Against the gradient, the model is a parabola. -/
theorem model_along (x : ℝ) : model J F (-x • gradient J F) = model J F 0 -
    x * ‖gradient J F‖ ^ 2 + 1 / 2 * x ^ 2 * ‖J.toEuclideanLin (gradient J F)‖ ^ 2 := by
  rw [model_eq, model_eq, map_smul, map_zero, add_zero, norm_sq_along, ← inner_gradient,
    real_inner_self_eq_norm_sq]
  ring

/-- The parabola, told by the place of its least point. -/
theorem model_along_eq (hg : gradient J F ≠ 0) (x : ℝ) : model J F (-x • gradient J F) =
    model J F 0 - x * (2 * descent J F - x) *
      (1 / 2 * ‖J.toEuclideanLin (gradient J F)‖ ^ 2) := by
  have hpos := (image_gradient_pos hg).ne'
  rw [model_along, descent]
  field_simp
  ring

/-- The model gets less up to twice the way to the Cauchy point. -/
theorem model_along_lt (hg : gradient J F ≠ 0) {x : ℝ} (hx : 0 < x) :
    model J F (-x • gradient J F) < model J F 0 ↔ x < 2 * descent J F := by
  have hpos := pow_pos (image_gradient_pos hg) 2
  rw [model_along_eq hg, sub_lt_self_iff, mul_pos_iff_of_pos_right (by positivity),
    mul_pos_iff_of_pos_left hx, sub_pos]

/-- Nowhere else along the gradient is the model as little as at the Cauchy point. -/
theorem model_cauchy_lt (hg : gradient J F ≠ 0) {x : ℝ} (hx : x ≠ descent J F) :
    model J F (-descent J F • gradient J F) < model J F (-x • gradient J F) := by
  have hpos := pow_pos (image_gradient_pos hg) 2
  have hsq : 0 < (x - descent J F) ^ 2 := by
    have := sub_ne_zero.mpr hx
    positivity
  rw [model_along_eq hg, model_along_eq hg]
  nlinarith only [mul_pos hsq hpos]

/-- Towards an exact Newton step, the model gets less in proportion to its root. -/
theorem model_towards {c p : EuclideanSpace ℝ (Fin n)} (hp : J.toEuclideanLin p = -F) (x : ℝ) :
    model J F (c + x • (p - c)) = (1 - x) ^ 2 * model J F c := by
  have hres : F + J.toEuclideanLin (c + x • (p - c)) = (1 - x) • (F + J.toEuclideanLin c) := by
    rw [map_add, map_smul, map_sub, hp]
    module
  rw [model_eq, hres, norm_smul, mul_pow, Real.norm_eq_abs, sq_abs, model_eq]
  ring

theorem clippedCauchy_outside (hg : gradient J F ≠ 0) (h : r ≤ ‖cauchyPoint J F‖) :
    clippedCauchy J F r = -(r / ‖gradient J F‖) • gradient J F := by
  rw [norm_cauchyPoint hg, ← div_le_iff₀ (norm_pos_iff.mpr hg)] at h
  rw [clippedCauchy, min_eq_right h]

theorem clippedCauchy_inside (hg : gradient J F ≠ 0) (h : ‖cauchyPoint J F‖ < r) :
    clippedCauchy J F r = cauchyPoint J F := by
  rw [norm_cauchyPoint hg, ← lt_div_iff₀ (norm_pos_iff.mpr hg)] at h
  rw [clippedCauchy, min_eq_left h.le, cauchyPoint]

/-- The clipped Cauchy point reduces the model. -/
theorem model_clippedCauchy_lt (hg : gradient J F ≠ 0) (hr : 0 < r) :
    model J F (clippedCauchy J F r) < model J F 0 := by
  have hd := descent_pos hg
  have hsize := norm_pos_iff.mpr hg
  apply (model_along_lt hg (lt_min hd (by positivity))).mpr
  linarith [min_le_left (descent J F) (r / ‖gradient J F‖)]

theorem model_nonneg : 0 ≤ model J F s := by rw [model_eq]; positivity

variable (J F) in
/-- Without a Newton step, and with the Cauchy point inside the ball, the step goes beyond it. -/
def Overshoots (r : ℝ) (newton : Option (EuclideanSpace ℝ (Fin n))) : Prop :=
  newton = none ∧ ‖cauchyPoint J F‖ < r

variable {newton : Option (EuclideanSpace ℝ (Fin n))}

/-- With an exact Newton step or none, a step that does not overshoot is at least as good for the
model as the clipped Cauchy point. -/
theorem Way.decreases (h : Way J F r newton s) (hg : gradient J F ≠ 0)
    (hn : ∀ p ∈ newton, J.toEuclideanLin p = -F) (ho : ¬ Overshoots J F r newton) :
    model J F s ≤ model J F (clippedCauchy J F r) := by
  cases h with
  | newton hp =>
    have hzero : model J F s = 0 := by simp [model_eq, hn s rfl]
    exact hzero.trans_le model_nonneg
  | rest h0 => exact absurd h0 hg
  | along h0 hp => exact absurd h0 hg
  | @steepest newton _ hfar =>
    have hc : r ≤ ‖cauchyPoint J F‖ := by
      cases newton with
      | none => exact not_lt.mp fun hc => ho ⟨rfl, hc⟩
      | some p => exact (hfar p rfl).2
    rw [clippedCauchy_outside hg hc]
  | @bend p x _ hp hc hx h0 h1 hs =>
    have hle : (1 - x) ^ 2 ≤ 1 := pow_le_one₀ (by linarith) (by linarith)
    rw [clippedCauchy_inside hg hc, model_towards (hn p rfl)]
    exact mul_le_of_le_one_left model_nonneg hle

/-- A step that overshoots ends on the sphere, where the model is greater than at the Cauchy point;
twice as far out it is not less than at the iterate. -/
theorem Way.overshoots (h : Way J F r newton s) (hr : 0 < r) (hg : gradient J F ≠ 0)
    (ho : Overshoots J F r newton) : s = -(r / ‖gradient J F‖) • gradient J F ∧
      model J F (clippedCauchy J F r) < model J F s ∧
      (model J F s < model J F 0 ↔ r < 2 * ‖cauchyPoint J F‖) := by
  obtain ⟨rfl, hc⟩ := ho
  have hsize := norm_pos_iff.mpr hg
  have hs : s = -(r / ‖gradient J F‖) • gradient J F := by
    cases h with
    | rest h0 => exact absurd h0 hg
    | steepest _ _ => rfl
  have hbeyond : r / ‖gradient J F‖ ≠ descent J F := by
    intro heq
    rw [norm_cauchyPoint hg, ← heq, div_mul_cancel₀ _ hsize.ne'] at hc
    exact hc.false
  rw [hs, clippedCauchy_inside hg hc]
  refine ⟨rfl, model_cauchy_lt hg hbeyond, ?_⟩
  rw [model_along_lt hg (by positivity), norm_cauchyPoint hg, div_lt_iff₀ hsize, mul_assoc]

end Decrease

/-- What the dogleg step does to the model, where the gradient is not zero and the linear solve is
exact or finds nothing. Unless it overshoots, the model is no greater than at the Cauchy point, or
at the point of the sphere before it, and a reduction is predicted. Without a Newton step and with
the Cauchy point inside the ball, the step goes past the Cauchy point to the sphere: the model is
greater there, and no reduction is predicted if it goes twice as far. -/
theorem dogleg_decreases_model {r : ℝ} (hr : 0 < r) (hg : gradient J F ≠ 0)
    (newton : Option (EuclideanSpace ℝ (Fin n)))
    (hn : ∀ p ∈ newton, J.toEuclideanLin p = -F) :
    ∃ s, doglegStep (mat J) (vec F) (real r) (newton.map vec) = .ok (vec s) ∧
      (¬ Overshoots J F r newton → model J F s ≤ model J F (clippedCauchy J F r) ∧
        0.0 < loss (vec F) - loss (vec F + (mat J).mulVec (vec s))) ∧
      (Overshoots J F r newton → s = -(r / ‖gradient J F‖) • gradient J F ∧
        model J F (clippedCauchy J F r) < model J F s ∧
        (0.0 < loss (vec F) - loss (vec F + (mat J).mulVec (vec s)) ↔
          r < 2 * ‖cauchyPoint J F‖)) := by
  obtain ⟨s, hs, hway⟩ := doglegStep_way (J := J) (F := F) hr newton
  simp only [predicted_real, zero_eq, lt_real, sub_pos]
  refine ⟨s, hs, fun ho => ?_, hway.overshoots hr hg⟩
  have hle := hway.decreases hg hn ho
  exact ⟨hle, hle.trans_lt (model_clippedCauchy_lt hg hr)⟩

/-- An exact Newton step that is too long. -/
theorem dogleg_decreases_model_single : (0 : ℝ) < 1 / 2 ∧ gradient !![2] (single 2) ≠ 0 ∧
    (!![2] : Matrix (Fin 1) (Fin 1) ℝ).toEuclideanLin (single (-1)) = -single 2 ∧ ∃ s,
    doglegStep (mat !![2]) (vec (single 2)) (real (1 / 2)) (some (vec (single (-1)))) =
      .ok (vec s) ∧
      model !![2] (single 2) s ≤ model !![2] (single 2) (clippedCauchy !![2] (single 2) (1 / 2)) ∧
      (0.0 : Exact) < loss (vec (single 2)) -
        loss (vec (single 2) + (mat !![2]).mulVec (vec s)) := by
  have hg : gradient !![2] (single 2) ≠ 0 := by
    have ht : (!![2] : Matrix (Fin 1) (Fin 1) ℝ).transpose = !![2] := by
      ext i j
      fin_cases i
      fin_cases j
      rfl
    rw [gradient, ht, apply_single, ← norm_ne_zero_iff, norm_single]
    norm_num
  have hp : (!![2] : Matrix (Fin 1) (Fin 1) ℝ).toEuclideanLin (single (-1)) = -single 2 := by
    rw [apply_single]
    ext i
    fin_cases i
    norm_num [single]
  have hr : (0 : ℝ) < 1 / 2 := by norm_num
  obtain ⟨s, hs, hdecreases, -⟩ := dogleg_decreases_model !![2] (single 2) hr hg
    (some (single (-1))) fun p h => Option.mem_some.mp h ▸ hp
  exact ⟨hr, hg, hp, s, hs, hdecreases fun h => nomatch h.1⟩

/-- A Jacobian that leaves the second equation as it is. -/
def flat : Matrix (Fin 2) (Fin 2) ℝ := !![1, 0; 0, 0]

theorem gradient_flat : gradient flat !₂[1, 1] = !₂[1, 0] := by
  ext i
  fin_cases i <;> simp [gradient, flat]

theorem flat_gradient : flat.toEuclideanLin !₂[1, 0] = !₂[1, 0] := by
  ext i
  fin_cases i <;> simp [flat]

theorem norm_gradient_flat : ‖gradient flat !₂[1, 1]‖ = 1 := by
  simp [gradient_flat, EuclideanSpace.norm_eq]

theorem gradient_flat_ne_zero : gradient flat !₂[1, 1] ≠ 0 := by
  rw [← norm_ne_zero_iff, norm_gradient_flat]
  exact one_ne_zero

theorem norm_cauchyPoint_flat : ‖cauchyPoint flat !₂[1, 1]‖ = 1 := by
  rw [norm_cauchyPoint gradient_flat_ne_zero, descent, norm_gradient_flat, gradient_flat,
    flat_gradient, ← gradient_flat, norm_gradient_flat]
  norm_num

/-- A singular Jacobian has no Newton step, and in a large region the step goes past the Cauchy
point: the model is greater than there, and no reduction is predicted. -/
theorem singular_step_overshoots : gradient flat !₂[1, 1] ≠ 0 ∧
    ∃ s, doglegStep (mat flat) (vec !₂[1, 1]) (real 10) none = .ok (vec s) ∧
      model flat !₂[1, 1] (clippedCauchy flat !₂[1, 1] 10) < model flat !₂[1, 1] s ∧
      ¬ (0.0 : Exact) < loss (vec !₂[1, 1]) - loss (vec !₂[1, 1] + (mat flat).mulVec (vec s)) := by
  have hg := gradient_flat_ne_zero
  have hr : (0 : ℝ) < 10 := by norm_num
  obtain ⟨s, hs, hway⟩ := doglegStep_way (J := flat) (F := !₂[1, 1]) hr none
  have hc : ‖cauchyPoint flat !₂[1, 1]‖ < 10 := by rw [norm_cauchyPoint_flat]; norm_num
  obtain ⟨-, hmore, hless⟩ := hway.overshoots hr hg ⟨rfl, hc⟩
  refine ⟨hg, s, hs, hmore, ?_⟩
  rw [predicted_real, zero_eq, lt_real, sub_pos, hless, norm_cauchyPoint_flat]
  norm_num

end Rootfinder.TrustRegion
