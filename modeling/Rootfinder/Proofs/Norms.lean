import Rootfinder.Norm
import Rootfinder.Proofs.Exact

namespace Rootfinder

namespace Exact

variable {r : List Exact} {xs : List ℝ} {x : ℝ}

/-- A list holds a value that is no number, or else an infinity, or else reals only. -/
theorem undefined_or_infinite_or_real (r : List Exact) :
    undefined ∈ r ∨ (undefined ∉ r ∧ ∃ s, infinite s ∈ r) ∨ ∃ xs : List ℝ, r = xs.map real := by
  induction r with
  | nil => exact .inr (.inr ⟨[], rfl⟩)
  | cons a r ih =>
    obtain h | ⟨h, s, hs⟩ | ⟨xs, rfl⟩ := ih
    · exact .inl (.tail a h)
    · cases a with
      | undefined => exact .inl (.head r)
      | infinite t => exact .inr (.inl ⟨by simp [h], t, .head r⟩)
      | real x => exact .inr (.inl ⟨by simp [h], s, .tail _ hs⟩)
    · cases a with
      | undefined => exact .inl (.head _)
      | infinite t => exact .inr (.inl ⟨by simp, t, .head _⟩)
      | real x => exact .inr (.inr ⟨x :: xs, rfl⟩)

section Largest

def largest (xs : List ℝ) : ℝ := (xs.map abs).max?.getD 0

theorem foldl_max_abs (xs : List ℝ) : (xs.map abs).foldl max 0 = largest xs := by
  cases xs with
  | nil => rfl
  | cons x xs => rw [largest, List.map_cons, List.foldl_cons, max_eq_right (abs_nonneg x)]; rfl

theorem largest_spec (xs : List ℝ) :
    (xs = [] ∧ largest xs = 0 ∨ ∃ x ∈ xs, |x| = largest xs) ∧ ∀ x ∈ xs, |x| ≤ largest xs := by
  cases h : (xs.map abs).max? with
  | none =>
    obtain rfl := List.map_eq_nil_iff.mp (List.max?_eq_none_iff.mp h)
    exact ⟨.inl ⟨rfl, rfl⟩, by simp⟩
  | some a =>
    obtain ⟨hmem, hall⟩ := List.max?_eq_some_iff.mp h
    have ha : largest xs = a := by rw [largest, h]; rfl
    rw [ha]
    exact ⟨.inr (List.mem_map.mp hmem), fun x hx => hall _ (List.mem_map_of_mem hx)⟩

theorem abs_le_largest (h : x ∈ xs) : |x| ≤ largest xs := (largest_spec xs).2 x h

theorem largest_nonneg (xs : List ℝ) : 0 ≤ largest xs := by
  obtain ⟨-, h⟩ | ⟨x, -, h⟩ := (largest_spec xs).1
  · exact h.ge
  · exact h ▸ abs_nonneg x

theorem largest_eq_zero_iff : largest xs = 0 ↔ ∀ x ∈ xs, x = 0 := by
  constructor
  · intro h x hx
    exact abs_nonpos_iff.mp (h ▸ abs_le_largest hx)
  · intro h
    obtain ⟨-, hzero⟩ | ⟨x, hx, hlargest⟩ := (largest_spec xs).1
    · exact hzero
    · rw [← hlargest, h x hx, abs_zero]

noncomputable def euclid (xs : List ℝ) : ℝ := √(xs.map (· ^ 2)).sum

theorem largest_le_euclid (xs : List ℝ) : largest xs ≤ euclid xs := by
  obtain ⟨-, hzero⟩ | ⟨x, hx, hlargest⟩ := (largest_spec xs).1
  · rw [hzero]
    exact Real.sqrt_nonneg _
  · rw [← hlargest]
    refine Real.abs_le_sqrt (List.single_le_sum ?_ _ (List.mem_map_of_mem (f := (· ^ 2)) hx))
    intro y hy
    obtain ⟨z, -, rfl⟩ := List.mem_map.mp hy
    exact sq_nonneg z

theorem euclid_le (xs : List ℝ) : euclid xs ≤ √xs.length * largest xs := by
  have hsum : (xs.map (· ^ 2)).sum ≤ xs.length * largest xs ^ 2 := by
    have hle := List.sum_le_card_nsmul (xs.map (· ^ 2)) (largest xs ^ 2) fun y hy => by
      obtain ⟨z, hz, rfl⟩ := List.mem_map.mp hy
      exact sq_le_sq' (neg_le_of_abs_le (abs_le_largest hz)) (le_of_abs_le (abs_le_largest hz))
    rwa [List.length_map, nsmul_eq_mul] at hle
  calc euclid xs ≤ √(xs.length * largest xs ^ 2) := Real.sqrt_le_sqrt hsum
    _ = √xs.length * largest xs := by
      rw [Real.sqrt_mul (Nat.cast_nonneg _), Real.sqrt_sq (largest_nonneg xs)]

theorem euclid_eq_zero_iff : euclid xs = 0 ↔ ∀ x ∈ xs, x = 0 := by
  rw [← largest_eq_zero_iff]
  constructor <;> intro h
  · exact le_antisymm (h ▸ largest_le_euclid xs) (largest_nonneg xs)
  · have hle := euclid_le xs
    rw [h, mul_zero] at hle
    exact le_antisymm hle (Real.sqrt_nonneg _)

end Largest

section Kernels

theorem magnitude_go_undefined (h : undefined ∈ r) (m : Exact) :
    magnitude.go m r = undefined := by
  induction r generalizing m with
  | nil => exact absurd h List.not_mem_nil
  | cons a r ih =>
    cases a with
    | undefined => rfl
    | infinite s => exact ih (by simpa using h) _
    | real x => exact ih (by simpa using h) _

/-- Once it is infinite, the running largest stays so. -/
theorem magnitude_go_infinity (h : undefined ∉ r) :
    magnitude.go (infinite false) r = infinite false := by
  induction r with
  | nil => rfl
  | cons a r ih =>
    have hr : undefined ∉ r := fun hmem => h (.tail a hmem)
    cases a with
    | undefined => exact absurd (.head r) h
    | infinite s =>
      have hge : ¬ (infinite false < infinite false) := fun hlt => Bool.noConfusion hlt.1
      exact (congrArg (magnitude.go · r) (if_neg hge)).trans (ih hr)
    | real x =>
      have hge : ¬ (infinite false < real |x|) := fun hlt => Bool.noConfusion hlt
      exact (congrArg (magnitude.go · r) (if_neg hge)).trans (ih hr)

theorem magnitude_go_infinite (h : undefined ∉ r) {s : Bool} (hs : infinite s ∈ r) (y : ℝ) :
    magnitude.go (real y) r = infinite false := by
  induction r generalizing y with
  | nil => exact absurd hs List.not_mem_nil
  | cons a r ih =>
    have hr : undefined ∉ r := fun hmem => h (.tail a hmem)
    cases a with
    | undefined => exact absurd (.head r) h
    | infinite t =>
      have hlt : real y < infinite false := rfl
      exact (congrArg (magnitude.go · r) (if_pos hlt)).trans (magnitude_go_infinity hr)
    | real x =>
      have hmax : magnitude.go (real y) (real x :: r) = magnitude.go (real (max y |x|)) r :=
        congrArg (magnitude.go · r) (larger_real y |x|)
      rw [hmax]
      exact ih hr (by simpa using hs) _

theorem magnitude_go_real (xs : List ℝ) (y : ℝ) :
    magnitude.go (real y) (xs.map real) = real ((xs.map abs).foldl max y) := by
  induction xs generalizing y with
  | nil => rfl
  | cons x xs ih =>
    exact (congrArg (magnitude.go · (xs.map real)) (larger_real y |x|)).trans (ih _)

theorem magnitude_undefined (h : undefined ∈ r) : magnitude r = undefined :=
  magnitude_go_undefined h _

theorem magnitude_infinite (h : undefined ∉ r) {s : Bool} (hs : infinite s ∈ r) :
    magnitude r = infinite false := by
  rw [magnitude, zero_eq]
  exact magnitude_go_infinite h hs 0

theorem magnitude_real (xs : List ℝ) : magnitude (xs.map real) = real (largest xs) := by
  rw [magnitude, zero_eq, magnitude_go_real, foldl_max_abs]

theorem lengthScaled_undefined (h : undefined ∈ r) : lengthScaled r = undefined := by
  rw [lengthScaled, magnitude_undefined h]
  rfl

theorem lengthScaled_infinite (h : undefined ∉ r) {s : Bool} (hs : infinite s ∈ r) :
    lengthScaled r = infinite false := by
  have hinf : Scalar.isInf (infinite false) = true := rfl
  rw [lengthScaled, magnitude_infinite h hs]
  simp only [hinf, Bool.or_true, if_true]

theorem foldl_add_scaled {s : ℝ} (hs : s ≠ 0) (xs : List ℝ) (c : ℝ) :
    (xs.map real).foldl (fun acc x => acc + (x / real s) * (x / real s)) (real c) =
      real (c + (xs.map (· ^ 2)).sum / s ^ 2) := by
  induction xs generalizing c with
  | nil => simp
  | cons x xs ih =>
    rw [List.map_cons, List.foldl_cons, div_real x hs, mul_real, add_real, ih, List.map_cons,
      List.sum_cons, add_assoc, ← pow_two, div_pow, add_div]

/-- The scale cancels. -/
theorem lengthScaled_real (xs : List ℝ) : lengthScaled (xs.map real) = real (euclid xs) := by
  rw [lengthScaled, magnitude_real]
  by_cases hzero : largest xs = 0
  · have heuclid : euclid xs = 0 := euclid_eq_zero_iff.mpr (largest_eq_zero_iff.mp hzero)
    simp [hzero, heuclid]
  · have hnan : Scalar.isNaN (real (largest xs)) = false := rfl
    have hinf : Scalar.isInf (real (largest xs)) = false := rfl
    have hsum : 0 ≤ (xs.map (· ^ 2)).sum / largest xs ^ 2 := by
      refine div_nonneg (List.sum_nonneg fun y hy => ?_) (sq_nonneg _)
      obtain ⟨z, -, rfl⟩ := List.mem_map.mp hy
      exact sq_nonneg z
    simp only [hnan, hinf, zero_eq, beq_real, hzero, decide_false, Bool.or_false,
      Bool.false_eq_true, if_false]
    rw [foldl_add_scaled hzero, zero_add, sqrt_real hsum, mul_real]
    rw [Real.sqrt_div' _ (sq_nonneg _), Real.sqrt_sq (largest_nonneg xs),
      mul_div_cancel₀ _ hzero]
    rfl

theorem ofNat_eq (n : ℕ) : (Scalar.ofNat n : Exact) = real n := by
  have hrat : (OfScientific.ofScientific n false 0 : ℝ) = n := by
    simp only [OfScientific.ofScientific, Rat.ofScientific_false_def, pow_zero, mul_one]
    exact Rat.cast_natCast n
  rw [Scalar.ofNat, ofScientific_eq, hrat]

theorem sqrt_ofNat (n : ℕ) : Scalar.sqrt (Scalar.ofNat n : Exact) = real √n := by
  rw [ofNat_eq, sqrt_real n.cast_nonneg]

/-- The root of a count is not zero, unless nothing was counted. -/
theorem sqrt_length_pos {β : Type} {l : List β} (h : l ≠ []) : 0 < √(l.length : ℝ) :=
  Real.sqrt_pos.mpr (Nat.cast_pos.mpr (List.length_pos_iff.mpr h))

theorem rootMeanSquare_of_ne_nil (h : r ≠ []) :
    rootMeanSquare r = lengthScaled r / real √r.length := by
  rw [rootMeanSquare, if_neg (by simpa using h), sqrt_ofNat]

theorem rootMeanSquare_undefined (h : undefined ∈ r) : rootMeanSquare r = undefined := by
  rw [rootMeanSquare_of_ne_nil (List.ne_nil_of_mem h), lengthScaled_undefined h]
  rfl

theorem rootMeanSquare_infinite (h : undefined ∉ r) {s : Bool} (hs : infinite s ∈ r) :
    rootMeanSquare r = infinite false := by
  have hpos := sqrt_length_pos (List.ne_nil_of_mem hs)
  have hdiv : infinite false / real √r.length = infinite (decide (√(r.length : ℝ) < 0)) :=
    congrArg infinite (Bool.false_xor _)
  rw [rootMeanSquare_of_ne_nil (List.ne_nil_of_mem hs), lengthScaled_infinite h hs, hdiv,
    decide_eq_false hpos.not_gt]

theorem rootMeanSquare_real (xs : List ℝ) : rootMeanSquare (xs.map real) =
    real (if xs = [] then 0 else euclid xs / √xs.length) := by
  by_cases h : xs = []
  · rw [if_pos h, h, ← zero_eq]
    rfl
  · rw [if_neg h, rootMeanSquare_of_ne_nil (by simpa using h), lengthScaled_real, List.length_map,
      div_real _ (sqrt_length_pos h).ne']

theorem rootMeanSquare_real_eq_zero_iff :
    rootMeanSquare (xs.map real) = real 0 ↔ ∀ x ∈ xs, x = 0 := by
  rw [rootMeanSquare_real, real.injEq]
  by_cases h : xs = []
  · simp [h]
  · rw [if_neg h, div_eq_zero_iff, or_iff_left (sqrt_length_pos h).ne', euclid_eq_zero_iff]

end Kernels

/-- The norms that are offered as such. -/
noncomputable def norms : List (Norm Exact) := [.l2, .inf, .rms]

theorem forall_norms {p : Norm Exact → Prop} : (∀ norm ∈ norms, p norm) ↔
    p .l2 ∧ p .inf ∧ p .rms := by simp [norms]

theorem norms_undefined (h : undefined ∈ r) : ∀ norm ∈ norms, norm.eval r = undefined :=
  forall_norms.mpr ⟨lengthScaled_undefined h, magnitude_undefined h, rootMeanSquare_undefined h⟩

theorem norms_infinite (h : undefined ∉ r) {s : Bool} (hs : infinite s ∈ r) :
    ∀ norm ∈ norms, norm.eval r = infinite false :=
  forall_norms.mpr
    ⟨lengthScaled_infinite h hs, magnitude_infinite h hs, rootMeanSquare_infinite h hs⟩

/-- Where a component is not real, a norm is not zero either. -/
theorem norms_eq_zero_iff (r : List Exact) :
    ∀ norm ∈ norms, norm.eval r = real 0 ↔ ∀ x ∈ r, x = real 0 := by
  obtain h | ⟨h, s, hs⟩ | ⟨xs, rfl⟩ := undefined_or_infinite_or_real r
  · have hne : ¬ ∀ x ∈ r, x = real 0 := fun hall => nomatch hall _ h
    exact fun norm hn =>
      iff_of_false (fun hz => nomatch (norms_undefined h norm hn).symm.trans hz) hne
  · have hne : ¬ ∀ x ∈ r, x = real 0 := fun hall => nomatch hall _ hs
    exact fun norm hn =>
      iff_of_false (fun hz => nomatch (norms_infinite h hs norm hn).symm.trans hz) hne
  · have hall : (∀ x ∈ xs.map real, x = real 0) ↔ ∀ x ∈ xs, x = 0 := by simp
    rw [forall_norms, hall]
    refine ⟨?_, ?_, rootMeanSquare_real_eq_zero_iff⟩
    · change lengthScaled (xs.map real) = real 0 ↔ _
      rw [lengthScaled_real, real.injEq, euclid_eq_zero_iff]
    · change magnitude (xs.map real) = real 0 ↔ _
      rw [magnitude_real, real.injEq, largest_eq_zero_iff]

/-- The greatest magnitude is at most the length, and that at most the root of the count times
the greatest magnitude. -/
theorem magnitude_le_lengthScaled_le (h : undefined ∉ r) : magnitude r ≤ lengthScaled r ∧
    lengthScaled r ≤ Scalar.sqrt (Scalar.ofNat r.length) * magnitude r := by
  obtain hundef | ⟨-, s, hs⟩ | ⟨xs, rfl⟩ := undefined_or_infinite_or_real r
  · exact absurd hundef h
  · have hpos := sqrt_length_pos (List.ne_nil_of_mem hs)
    have hmul : real √r.length * infinite false = infinite (decide (√(r.length : ℝ) < 0)) :=
      (if_neg hpos.ne').trans (congrArg infinite (Bool.false_xor _))
    rw [lengthScaled_infinite h hs, magnitude_infinite h hs, sqrt_ofNat, hmul,
      decide_eq_false hpos.not_gt]
    exact ⟨.inr rfl, .inr rfl⟩
  · rw [lengthScaled_real, magnitude_real, sqrt_ofNat, mul_real, List.length_map]
    exact ⟨largest_le_euclid xs, euclid_le xs⟩

end Exact

open Exact

/-- The norms of any list. They are undefined if some component is, and otherwise infinite if some
component is; on reals, however many, they are what their names say. So a norm is zero exactly where
all components are, and the greatest magnitude bounds the length from below and, times the root of
the count, from above. -/
theorem norms_compute (r : List Exact) :
    (undefined ∈ r → ∀ norm ∈ norms, norm.eval r = undefined) ∧
      (undefined ∉ r → ∀ s, infinite s ∈ r → ∀ norm ∈ norms, norm.eval r = infinite false) ∧
      (∀ xs : List ℝ, r = xs.map real →
        Norm.l2.eval r = real √(xs.map (· ^ 2)).sum ∧
        Norm.inf.eval r = real ((xs.map abs).max?.getD 0) ∧
        Norm.rms.eval r =
          real (if xs = [] then 0 else √(xs.map (· ^ 2)).sum / √xs.length)) ∧
      (∀ norm ∈ norms, norm.eval r = real 0 ↔ ∀ x ∈ r, x = real 0) ∧
      (undefined ∉ r → Norm.inf.eval r ≤ Norm.l2.eval r ∧
        Norm.l2.eval r ≤ Scalar.sqrt (Scalar.ofNat r.length) * Norm.inf.eval r) := by
  refine ⟨norms_undefined, fun h s hs => norms_infinite h hs, ?_, norms_eq_zero_iff r,
    magnitude_le_lengthScaled_le⟩
  rintro xs rfl
  exact ⟨lengthScaled_real xs, magnitude_real xs, rootMeanSquare_real xs⟩

/-- A right triangle, also with an infinite leg, and with a leg that is no number behind that. -/
theorem norms_compute_triangle :
    (∀ norm ∈ norms, norm.eval [real 3, infinite true, undefined] = undefined) ∧
      (∀ norm ∈ norms, norm.eval [real 3, infinite true] = infinite false) ∧
      Norm.l2.eval [real 3, real (-4)] = real 5 ∧
      Norm.inf.eval [real 3, real (-4)] ≤ real 5 := by
  have hroot : √([(3 : ℝ), -4].map (· ^ 2)).sum = 5 := by
    rw [Real.sqrt_eq_iff_mul_self_eq_of_pos (by norm_num)]
    norm_num
  have hlength : Norm.l2.eval [real 3, real (-4)] = real 5 :=
    ((norms_compute [real 3, real (-4)]).2.2.1 [3, -4] rfl).1.trans (congrArg real hroot)
  refine ⟨(norms_compute [real 3, infinite true, undefined]).1 (by simp),
    (norms_compute [real 3, infinite true]).2.1 (by simp) true (by simp), hlength, ?_⟩
  rw [← hlength]
  exact ((norms_compute [real 3, real (-4)]).2.2.2.2 (by simp)).1

end Rootfinder
