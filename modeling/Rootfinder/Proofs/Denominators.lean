import Rootfinder.Proofs.Magnitudes
import Rootfinder.Proofs.Resets

namespace Rootfinder

open Iteration Rounding Secant

namespace Klement

section Updates

variable {α : Type} [Scalar α] {n : ℕ}

/-- What an update divides by. -/
def denominator (diag delta : Vec α n) : α :=
  Vec.dot (Vector.zipWith (· * ·) (diag.map fun d => d * d) delta) delta

theorem updated_eq_some {diag delta y K : Vec α n} (h : updated diag delta y = some K) :
    Scalar.isFinite (denominator diag delta) = true ∧
    ¬ denominator diag delta ≤
      Scalar.epsilon * Vec.greatest (diag.map fun d => d * d) * Vec.dot delta delta ∧
    K = diag + Vec.divide (Vector.zipWith (· * ·) (y - Vector.zipWith (· * ·) diag delta)
      (Vector.zipWith (· * ·) (diag.map fun d => d * d) delta)) (denominator diag delta) := by
  simp only [updated] at h
  split at h
  · cases h
  · rename_i hguard
    rw [Bool.or_eq_true, not_or, Bool.not_eq_true', Bool.not_eq_false, decide_eq_true_eq] at hguard
    exact ⟨hguard.1, hguard.2, (Option.some.inj h).symm⟩

end Updates

variable {n limit : ℕ} {o : Options Float}

theorem not_le_of_degenerate {diag : Vec Float n} (h : degenerate diag = false) :
    ∀ d ∈ diag, ¬ Scalar.abs d ≤ Scalar.epsilon := by
  intro d hd hle
  rw [degenerate, ← Bool.not_eq_true, Vector.any_eq_true'] at h
  exact h ⟨d, hd, decide_eq_true hle⟩

/-- No step is proposed by an estimate that is too small to divide by. -/
theorem not_le_of_poised {e z : Iteration Float n (Memory (Vec Float n))}
    (h : Poised rule (plan limit o n) e z) :
    ∀ d ∈ z.memory.estimate, ¬ Scalar.abs d ≤ Scalar.epsilon := by
  cases h with
  | ready h => exact not_le_of_degenerate h
  | renewed =>
    intro d hd
    have hone : d = 1.0 := (Vector.mem_replicate.mp hd).2
    subst hone
    decide

/-- The square of an entry that can be divided by is no less than that of the gap. -/
theorem square_epsilon_le {d : Float} (hfinite : Scalar.isFinite d = true)
    (hd : ¬ Scalar.abs d ≤ Scalar.epsilon) : Scalar.epsilon * Scalar.epsilon ≤ d * d := by
  obtain ⟨x, hx⟩ := worth_abs hfinite
  obtain ⟨y, hy⟩ := worth_of (Rounding.le_of_lt epsilon_pos) epsilon_finite
  have hlt : Scalar.epsilon < d.abs :=
    (lt_or_le (not_nan_of_finite hy.isFinite) (not_nan_of_finite hx.isFinite)).resolve_right hd
  have hle : y ≤ x := hy.le hx (Rounding.le_of_lt hlt)
  rw [← abs_mul_abs d]
  exact (hy.mul hy).le (hx.mul hx) (mul_self_le_mul_self hy.value_nonneg hle)

section Guard

variable {diag delta y K : Vec Float n}

/-- The bound that a denominator is compared with is not below zero, where the denominator is
finite. -/
theorem bound_nonneg (hn : 0 < n) (hdiag : ∀ d ∈ diag, ¬ Scalar.abs d ≤ Scalar.epsilon)
    (hfinite : Scalar.isFinite (denominator diag delta) = true) :
    0.0 ≤ Scalar.epsilon * Vec.greatest (diag.map fun d => d * d) * Vec.dot delta delta := by
  have hparts : ∀ (i : ℕ) (hi : i < n), Scalar.isFinite (diag[i] * diag[i]) = true ∧
      Scalar.isFinite delta[i] = true := fun i hi => by
    obtain ⟨hw, hdelta⟩ := isFinite_of_dot hfinite hi
    rw [Vector.getElem_zipWith, Vector.getElem_map] at hw
    exact ⟨(isFinite_of_mul hw).1, hdelta⟩
  have hsquares : ∀ x ∈ diag.map fun d => d * d, 0.0 ≤ x := fun x hx => by
    obtain ⟨i, hi, rfl⟩ := Vector.mem_iff_getElem.mp hx
    rw [Vector.getElem_map]
    exact nonneg_square (isFinite_of_mul (hparts i hi).1).1
  obtain ⟨hmem, hge⟩ := greatest_spec hn hsquares
  generalize Vec.greatest (diag.map fun d => d * d) = g at hmem hge ⊢
  obtain ⟨hgfinite, hgle⟩ : Scalar.isFinite g = true ∧ Scalar.epsilon * Scalar.epsilon ≤ g := by
    obtain ⟨i, hi, rfl⟩ := Vector.mem_iff_getElem.mp hmem
    rw [Vector.getElem_map]
    have hdi := (hparts i hi).1
    exact ⟨hdi, square_epsilon_le (isFinite_of_mul hdi).1 (hdiag _ (diag.getElem_mem hi))⟩
  have hscaled := mul_le_self' (hsquares g hmem) hgfinite (Rounding.le_of_lt epsilon_pos)
    epsilon_le_one
  have hpos := epsilon_mul_pos hgfinite hgle
  have hdelta : delta.allFinite = true := Vector.all_eq_true.mpr fun i hi => (hparts i hi).2
  exact nonneg_mul hpos (isFinite_of_le hscaled.1 hscaled.2 hgfinite) (nonneg_dot hdelta)

/-- An update divides by a number above zero. -/
theorem denominator_pos (hn : 0 < n) (hdiag : ∀ d ∈ diag, ¬ Scalar.abs d ≤ Scalar.epsilon)
    (h : updated diag delta y = some K) : Scalar.isFinite (denominator diag delta) = true ∧
      0.0 < denominator diag delta := by
  obtain ⟨hfinite, hguard, -⟩ := updated_eq_some h
  have hbound := bound_nonneg hn hdiag hfinite
  obtain ⟨h0, hnan⟩ := Ranking.not_nan_of_le hbound
  refine ⟨hfinite, (lt_or_le h0 (not_nan_of_finite hfinite)).resolve_right fun hle => hguard ?_⟩
  exact Ranking.le_trans hle hbound

end Guard

end Klement

namespace Broyden

section Updates

variable {α : Type} [Scalar α] {n : ℕ}

/-- What an update divides by. -/
def denominator (inverse : Mat α n n) (delta y : Vec α n) : α := Vec.dot delta (inverse.mulVec y)

theorem updated_eq_some {inverse K : Mat α n n} {delta y : Vec α n}
    (h : updated inverse delta y = some K) :
    Scalar.isFinite (denominator inverse delta y) = true ∧
    ¬ Scalar.abs (denominator inverse delta y) ≤
      Scalar.epsilon * (delta.euclid * (inverse.mulVec y).euclid) ∧
    K = Vector.zipWith (fun row c => row + Vec.divide (Vec.scale c (Mat.vecMul delta inverse))
      (denominator inverse delta y)) inverse (delta - inverse.mulVec y) := by
  simp only [updated] at h
  split at h
  · cases h
  · rename_i hguard
    rw [Bool.or_eq_true, not_or, Bool.not_eq_true', Bool.not_eq_false, decide_eq_true_eq] at hguard
    exact ⟨hguard.1, hguard.2, (Option.some.inj h).symm⟩

end Updates

variable {n : ℕ} {inverse K : Mat Float n n} {delta y : Vec Float n}

/-- The bound that a denominator is compared with is no number: it is the product of a length that
is zero, as short ones come out, and one that is infinite, as long ones do. -/
def Blind (inverse : Mat Float n n) (delta y : Vec Float n) : Prop :=
  (delta.euclid == 0.0) = true ∧ Scalar.isInf (inverse.mulVec y).euclid = true ∨
    Scalar.isInf delta.euclid = true ∧ ((inverse.mulVec y).euclid == 0.0) = true

/-- An update divides by a finite number, which is no zero unless the test is blind. -/
theorem denominator_ne_zero (hd : delta.allFinite = true)
    (h : updated inverse delta y = some K) :
    Scalar.isFinite (denominator inverse delta y) = true ∧
      ((denominator inverse delta y == 0.0) = false ∨ Blind inverse delta y) := by
  obtain ⟨hfinite, hguard, -⟩ := updated_eq_some h
  refine ⟨hfinite, ?_⟩
  cases hzero : denominator inverse delta y == 0.0 with
  | false => exact .inl rfl
  | true =>
    right
    obtain ⟨s, hs⟩ := beq_zero_iff.mp hzero
    rw [show Scalar.abs (denominator inverse delta y) = 0.0 from abs_of_zero hs] at hguard
    have hchange : (inverse.mulVec y).allFinite = true :=
      Vector.all_eq_true.mpr fun i hi => (isFinite_of_dot hfinite hi).2
    have hlength := nonneg_sqrt (nonneg_dot hd)
    have hlength' := nonneg_sqrt (nonneg_dot hchange)
    have hnan : (delta.euclid * (inverse.mulVec y).euclid).isNaN = true := by
      by_contra hnumber
      rw [Bool.not_eq_true] at hnumber
      have hproduct := (notBelow_mul (.inr hlength) (.inr hlength')).nonneg hnumber
      exact hguard (nonneg_mul epsilon_pos epsilon_finite hproduct)
    exact (nan_of_mul hlength hlength' hnan).imp
      (fun h => ⟨beq_zero_iff.mpr h.1, isInf_iff.mpr ⟨_, h.2⟩⟩)
      fun h => ⟨isInf_iff.mpr ⟨_, h.1⟩, beq_zero_iff.mpr h.2⟩

/-- Nothing is left of an estimate that was updated by dividing by zero. -/
theorem isFinite_of_zero (h : updated inverse delta y = some K)
    (hzero : (denominator inverse delta y == 0.0) = true) :
    ∀ row ∈ K, ∀ a ∈ row, Scalar.isFinite a = false := by
  obtain ⟨-, -, rfl⟩ := updated_eq_some h
  obtain ⟨s, hs⟩ := beq_zero_iff.mp hzero
  intro row hrow a ha
  obtain ⟨i, hi, rfl⟩ := Vector.mem_iff_getElem.mp hrow
  obtain ⟨j, hj, rfl⟩ := Vector.mem_iff_getElem.mp ha
  rw [Vector.getElem_zipWith, Vector.getElem_add, Vec.divide, Vector.getElem_map]
  by_contra hfinite
  rw [Bool.not_eq_false] at hfinite
  exact Bool.false_ne_true ((isFinite_div_zero hs).symm.trans (isFinite_of_add hfinite).2)

/-- Such an estimate proposes no finite step. -/
theorem delta_of_nonfinite (hn : 0 < n) (h : ∀ row ∈ K, ∀ a ∈ row, Scalar.isFinite a = false)
    (fu : Vec Float n) : (Broyden.delta K fu).allFinite = false := by
  rw [← Bool.not_eq_true, Vec.allFinite, Vector.all_eq_true]
  intro hfinite
  have hfirst := hfinite 0 hn
  rw [Broyden.delta, Vector.getElem_neg, Mat.mulVec, Vector.getElem_map] at hfirst
  have hentry := (isFinite_of_dot (isFinite_of_neg hfirst) hn).1
  rw [h _ (K.getElem_mem hn) _ (K[0].getElem_mem hn)] at hentry
  cases hentry

section Steps

variable {limit : ℕ} {o : Options Float} {e x : Iteration Float n (Memory (Mat Float n n))}

/-- From an estimate of which nothing is left, a step registers a reset and moves nowhere. -/
theorem reset_of_nonfinite (hn : 0 < n)
    (he : ∀ row ∈ e.memory.estimate, ∀ a ∈ row, Scalar.isFinite a = false)
    (hx : (step (method limit o n)).Returns e () x)
    (hcounted : x.stats.nsteps = e.stats.nsteps + 1) :
    x.u = e.u ∧ x.fu = e.fu ∧ x.memory.resets = e.memory.resets + 1 := by
  have hd : ∀ {z}, Poised rule (plan limit o n) e z → (rule.proposal z).allFinite = true →
      False := fun hz hfinite => by
    obtain rfl := poised_eq hz
    have hnone : (rule.proposal _).allFinite = false := delta_of_nonfinite hn he _
    rw [hnone] at hfinite
    cases hfinite
  obtain ⟨z, hz, hu, hfu, hm⟩ | ⟨z, hz, hstride, -⟩ := lost_or_stride .broyden hx hcounted
  · cases hz with
    | refused h => cases h
    | unbounded hz =>
      obtain rfl := poised_eq hz
      exact ⟨hu, hfu, by rw [hm, afterReset_resets]⟩
    | degenerate hz hfinite => exact (hd hz hfinite).elim
  · exact (hd hz hstride.finite).elim

end Steps

end Broyden

/-- Degenerate updates are caught. Klement's method proposes no step by an entry that is no greater
than the gap between one and the next double, and a step of either method that counts registers a
reset or divides by a finite number, above zero in Klement's method and other than zero in
Broyden's. There is one exception: where Broyden's test compares with the product of a length that
is zero and one that is infinite, it lets a denominator of zero pass. Nothing of the estimate is
finite then, and the next step registers the reset and moves nowhere. -/
theorem degenerate_updates_are_caught {n limit : ℕ} (hn : 0 < n) {o : Options Float} :
    (∀ e z : Iteration Float n (Memory (Vec Float n)),
      Poised Klement.rule (Klement.plan limit o n) e z →
        ∀ d ∈ z.memory.estimate, ¬ Scalar.abs d ≤ Scalar.epsilon) ∧
    (∀ e x : Iteration Float n (Memory (Vec Float n)),
      (step (Klement.method limit o n)).Returns e () x → x.stats.nsteps = e.stats.nsteps + 1 →
      (∃ z, Loses Klement.rule (Klement.plan limit o n) e z ∧
        x.memory = (afterReset (Klement.plan limit o n) z).memory) ∨
      ∃ z, Poised Klement.rule (Klement.plan limit o n) e z ∧
        Stride Klement.updated (Klement.delta z.memory.estimate z.fu) z x ∧
        Scalar.isFinite
          (Klement.denominator z.memory.estimate (Klement.delta z.memory.estimate z.fu)) = true ∧
        0.0 < Klement.denominator z.memory.estimate (Klement.delta z.memory.estimate z.fu)) ∧
    ∀ e x : Iteration Float n (Memory (Mat Float n n)),
      (step (Broyden.method limit o n)).Returns e () x → x.stats.nsteps = e.stats.nsteps + 1 →
      (∃ z, Loses Broyden.rule (Broyden.plan limit o n) e z ∧
        x.memory = (afterReset (Broyden.plan limit o n) z).memory) ∨
      Stride Broyden.updated (Broyden.delta e.memory.estimate e.fu) e x ∧
        Scalar.isFinite (Broyden.denominator e.memory.estimate
          (Broyden.delta e.memory.estimate e.fu) (x.fu - e.fu)) = true ∧
        ((Broyden.denominator e.memory.estimate (Broyden.delta e.memory.estimate e.fu)
            (x.fu - e.fu) == 0.0) = false ∨
          Broyden.Blind e.memory.estimate (Broyden.delta e.memory.estimate e.fu) (x.fu - e.fu) ∧
          (∀ row ∈ x.memory.estimate, ∀ a ∈ row, Scalar.isFinite a = false) ∧
          ∀ x', (step (Broyden.method limit o n)).Returns x () x' →
            x'.stats.nsteps = x.stats.nsteps + 1 →
              x'.u = x.u ∧ x'.fu = x.fu ∧ x'.memory.resets = x.memory.resets + 1) := by
  refine ⟨fun e z hz => Klement.not_le_of_poised hz, fun e x hx hcounted => ?_,
    fun e x hx hcounted => ?_⟩
  · refine (lost_or_stride .klement hx hcounted).imp
      (fun ⟨z, hz, _, _, hm⟩ => ⟨z, hz, hm⟩) fun ⟨z, hz, hstride, _⟩ => ?_
    exact ⟨z, hz, hstride,
      Klement.denominator_pos hn (Klement.not_le_of_poised hz) hstride.estimate⟩
  · refine (lost_or_stride .broyden hx hcounted).imp
      (fun ⟨z, hz, _, _, hm⟩ => ⟨z, hz, hm⟩) fun ⟨z, hz, hstride, _⟩ => ?_
    obtain rfl := Broyden.poised_eq hz
    have hfinite := Broyden.denominator_ne_zero hstride.finite hstride.estimate
    refine ⟨hstride, hfinite.1, ?_⟩
    cases hzero : Broyden.denominator z.memory.estimate (Broyden.delta z.memory.estimate z.fu)
        (x.fu - z.fu) == 0.0 with
    | false => exact .inl rfl
    | true =>
      have hnothing := Broyden.isFinite_of_zero hstride.estimate hzero
      have hblind := hfinite.2.resolve_left fun h => Bool.false_ne_true (h.symm.trans hzero)
      exact .inr ⟨hblind, hnothing, fun x' hx' hcounted' =>
        Broyden.reset_of_nonfinite hn hnothing hx' hcounted'⟩

/-- The run of Broyden's method that begins where the residual is so great that the square of a step
is infinite. -/
def farRun : Iteration Float 1 (Memory (Mat Float 1 1)) :=
  begun broydenOnce (plateau (-1e160))
    ((plateau (-1e160)).residualInto (plateau (-1e160)).start (Vec.zero 1)).array

theorem farRun_begins : Begins broydenOnce (plateau (-1e160)) farRun :=
  .start (returns_start rfl)

/-- Its first step divides by zero, and its second one finds the estimate useless. -/
theorem degenerate_updates_are_caught_far :
    Broyden.Blind farRun.memory.estimate (Broyden.delta farRun.memory.estimate farRun.fu)
      ((after broydenOnce 1 farRun).fu - farRun.fu) ∧
    (∀ row ∈ (after broydenOnce 1 farRun).memory.estimate, ∀ a ∈ row,
      Scalar.isFinite a = false) ∧
    (after broydenOnce 2 farRun).u = (after broydenOnce 1 farRun).u ∧
    (after broydenOnce 2 farRun).memory.resets = 1 := by
  have hok : ∀ k < 2,
      ((step broydenOnce).run (after broydenOnce k farRun)).result.isOk = true := by
    decide +kernel
  have hcounted : (after broydenOnce 1 farRun).stats.nsteps = farRun.stats.nsteps + 1 := by
    decide +kernel
  have hcounted' : (after broydenOnce 2 farRun).stats.nsteps =
      (after broydenOnce 1 farRun).stats.nsteps + 1 := by decide +kernel
  have hkept : (after broydenOnce 1 farRun).memory.resets = 0 := by decide +kernel
  have hzero : (Broyden.denominator farRun.memory.estimate
      (Broyden.delta farRun.memory.estimate farRun.fu)
      ((after broydenOnce 1 farRun).fu - farRun.fu) == 0.0) = true := by decide +kernel
  have hfirst : (step broydenOnce).Returns farRun () (after broydenOnce 1 farRun) :=
    Act.returns_of_isOk (hok 0 (by decide))
  have hsecond : (step broydenOnce).Returns (after broydenOnce 1 farRun) ()
      (after broydenOnce 2 farRun) := Act.returns_of_isOk (hok 1 (by decide))
  obtain ⟨z, -, hm⟩ | ⟨-, -, hcaught⟩ :=
    (degenerate_updates_are_caught Nat.one_pos).2.2 _ _ hfirst hcounted
  · rw [hm, afterReset_resets] at hkept
    cases hkept
  · obtain ⟨hblind, hnothing, hnext⟩ := hcaught.resolve_left fun h =>
      Bool.false_ne_true (h.symm.trans hzero)
    obtain ⟨hu, -, hresets⟩ := hnext _ hsecond hcounted'
    exact ⟨hblind, hnothing, hu, hresets.trans (by rw [hkept])⟩

/-- On a problem with finite values, a step of Broyden's method divides by zero instead of
registering a reset. -/
theorem degenerate_update_slips_through : Begins broydenOnce (plateau (-1e160)) farRun ∧
    (∀ u out, ((plateau (-1e160)).residualInto u out).array.allFinite = true) ∧
    (step broydenOnce).Returns farRun () (after broydenOnce 1 farRun) ∧
    (after broydenOnce 1 farRun).memory.resets = farRun.memory.resets ∧
    Broyden.updated farRun.memory.estimate (Broyden.delta farRun.memory.estimate farRun.fu)
      ((after broydenOnce 1 farRun).fu - farRun.fu) =
      some (after broydenOnce 1 farRun).memory.estimate ∧
    (Broyden.denominator farRun.memory.estimate
      (Broyden.delta farRun.memory.estimate farRun.fu)
      ((after broydenOnce 1 farRun).fu - farRun.fu) == 0.0) = true := by
  have hok : ((step broydenOnce).run farRun).result.isOk = true := by decide +kernel
  have hstep : (step broydenOnce).Returns farRun () (after broydenOnce 1 farRun) :=
    Act.returns_of_isOk hok
  have hfinite : (Vector.replicate 1 (-1e160 : Float)).all Scalar.isFinite = true := by
    decide +kernel
  have hkept : (after broydenOnce 1 farRun).memory.resets = farRun.memory.resets := by
    decide +kernel
  refine ⟨farRun_begins, fun _ _ => hfinite, hstep, hkept, ?_, by decide +kernel⟩
  have hcounted : (after broydenOnce 1 farRun).stats.nsteps = farRun.stats.nsteps + 1 := by
    decide +kernel
  obtain ⟨z, hz, -, -, hm⟩ | ⟨z, hz, hstride, -⟩ := lost_or_stride .broyden hstep hcounted
  · rw [hm, afterReset_resets] at hkept
    exact absurd hkept (by have := hz.resets_le; omega)
  · obtain rfl := Broyden.poised_eq hz
    exact hstride.estimate

end Rootfinder
