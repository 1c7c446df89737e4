import Mathlib

namespace Rootfinder.Rounding

open Float.Model Float.Model.UnpackedFloat

/-- Where a number stands among the halves of integers: a multiple of four for an integer, two more
half way to the next, and odd in between. -/
noncomputable def standing (y : ℝ) : ℤ := ⌊2 * y⌋ + ⌈2 * y⌉

def toEven (k : ℤ) : ℤ := k / 4 + if k % 4 = 3 then 1 else if k % 4 = 2 then k / 4 % 2 else 0

theorem standing_mono {x y : ℝ} (h : x ≤ y) : standing x ≤ standing y :=
  add_le_add (Int.floor_le_floor (by linarith)) (Int.ceil_le_ceil (by linarith))

theorem toEven_mono {j k : ℤ} (h : j ≤ k) : toEven j ≤ toEven k := by
  unfold toEven
  omega

@[simp]
theorem standing_intCast (m : ℤ) : standing m = 4 * m := by
  have h : (2 * m : ℝ) = ((2 * m : ℤ) : ℝ) := by push_cast; rfl
  rw [standing, h, Int.floor_intCast, Int.ceil_intCast]
  ring

@[simp]
theorem toEven_four_mul (m : ℤ) : toEven (4 * m) = m := by
  unfold toEven
  omega

theorem standing_div_four (y : ℝ) : standing y / 4 = ⌊y⌋ := by
  have hle := standing_mono (Int.floor_le y)
  have hfloor : ⌊2 * y⌋ < 2 * ⌊y⌋ + 2 := by
    rw [Int.floor_lt]
    push_cast
    linarith [Int.lt_floor_add_one y]
  have hceil : ⌈2 * y⌉ ≤ 2 * ⌊y⌋ + 2 := by
    rw [Int.ceil_le]
    push_cast
    linarith [Int.lt_floor_add_one y]
  rw [standing_intCast] at hle
  unfold standing at hle ⊢
  omega

/-- Between two halves of integers. -/
theorem standing_between {y : ℝ} {k : ℤ} (h : k < 2 * y) (h' : 2 * y < k + 1) :
    standing y = 2 * k + 1 := by
  have hfloor : ⌊2 * y⌋ = k := Int.floor_eq_iff.mpr ⟨h.le, h'⟩
  have hceil : ⌈2 * y⌉ = k + 1 := by
    rw [Int.ceil_eq_iff]
    push_cast
    exact ⟨by linarith, h'.le⟩
  rw [standing, hfloor, hceil]
  ring

/-- Dropping the last digit of a number tells where its half stands. -/
theorem standing_half (y : ℝ) :
    standing (y / 2) = 2 * (standing y / 4) + if standing y % 4 = 0 then 0 else 1 := by
  have hfloor := Int.floor_le y
  have hfloor' := Int.lt_floor_add_one y
  have htwo : 2 * (y / 2) = y := by ring
  unfold standing
  rw [htwo]
  obtain hint | hlt := hfloor.eq_or_lt
  · rw [← hint, Int.floor_intCast, Int.ceil_intCast]
    have h := standing_intCast ⌊y⌋
    unfold standing at h
    rw [h]
    omega
  · have hceil : ⌈y⌉ = ⌊y⌋ + 1 := by
      rw [Int.ceil_eq_iff]
      push_cast
      constructor <;> linarith
    have hlow : 2 * ⌊y⌋ ≤ ⌊2 * y⌋ := by
      rw [Int.le_floor]
      push_cast
      linarith
    have hhigh : ⌈2 * y⌉ ≤ 2 * ⌊y⌋ + 2 := by
      rw [Int.ceil_le]
      push_cast
      linarith
    have hpos : 2 * ⌊y⌋ < ⌈2 * y⌉ := by
      rw [Int.lt_ceil]
      push_cast
      linarith
    have hneg : ⌊2 * y⌋ < 2 * ⌊y⌋ + 2 := by
      rw [Int.floor_lt]
      push_cast
      linarith
    rw [hceil]
    omega

section Mantissas

/-- A number with a mantissa and an exponent, in units of its last place. -/
theorem mantissa_div (m : ℕ) (e : ℤ) : (m : ℝ) * 2 ^ e / 2 ^ e = ((m : ℤ) : ℝ) := by
  rw [mul_div_cancel_right₀ _ (by positivity), Int.cast_natCast]

/-- Where the number stands that an extended mantissa was cut from. -/
def key (em : ExtendedMantissa) : ℤ :=
  4 * em.mantissa + (if em.roundBit then 2 else 0) + if em.stickyBit then 1 else 0

theorem key_shiftRightOne (em : ExtendedMantissa) :
    key em.shiftRightOne = 2 * (key em / 4) + if key em % 4 = 0 then 0 else 1 := by
  obtain ⟨m, r, s⟩ := em
  have hbit : (m % 2 != 0) = true ↔ m % 2 = 1 := by
    rw [bne_iff_ne]
    omega
  unfold key ExtendedMantissa.shiftRightOne
  cases r <;> cases s <;> simp only [hbit, Bool.or_self, Bool.or_true, Bool.true_or] <;>
    simp only [Bool.false_eq_true, if_false, if_true] <;> split <;> omega

theorem key_mantissa (em : ExtendedMantissa) : key em / 4 = em.mantissa := by
  unfold key
  split <;> split <;> omega

/-- Rounding a mantissa by its residual bits. -/
theorem roundedMantissa_eq (em : ExtendedMantissa) :
    (em.roundedMantissa : ℤ) = toEven (key em) := by
  obtain ⟨m, r, s⟩ := em
  cases r <;> cases s <;>
    simp only [ExtendedMantissa.roundedMantissa, ExtendedMantissa.accuracy,
      Accuracy.roundToNearestEven, key, toEven, Bool.false_eq_true, if_false, if_true] <;>
    push_cast <;> omega

section Accuracies

variable (m : ℕ)

@[simp]
theorem key_exact : key (.ofMantissaAndAccuracy m .exact) = 4 * m := by
  simp [key, ExtendedMantissa.ofMantissaAndAccuracy]

@[simp]
theorem key_lt : key (.ofMantissaAndAccuracy m (.inexact .lt)) = 4 * m + 1 := by
  simp [key, ExtendedMantissa.ofMantissaAndAccuracy]

@[simp]
theorem key_eq : key (.ofMantissaAndAccuracy m (.inexact .eq)) = 4 * m + 2 := by
  simp [key, ExtendedMantissa.ofMantissaAndAccuracy]

@[simp]
theorem key_gt : key (.ofMantissaAndAccuracy m (.inexact .gt)) = 4 * m + 3 := by
  simp [key, ExtendedMantissa.ofMantissaAndAccuracy]
  ring

end Accuracies

/-- Below half way to the next integer. -/
theorem key_below {q : ℕ} {y : ℝ} (h : 2 * q < 2 * y) (h' : 2 * y < 2 * q + 1) :
    key (.ofMantissaAndAccuracy q (.inexact .lt)) = standing y := by
  rw [key_lt, standing_between (k := 2 * q) (by exact_mod_cast h) (by exact_mod_cast h')]
  ring

/-- Above half way to the next integer. -/
theorem key_above {q : ℕ} {y : ℝ} (h : 2 * q + 1 < 2 * y) (h' : 2 * y < 2 * q + 2) :
    key (.ofMantissaAndAccuracy q (.inexact .gt)) = standing y := by
  rw [key_gt, standing_between (k := 2 * q + 1) (by exact_mod_cast h) (by push_cast; linarith)]
  ring

def Cut (em : ExtendedMantissa) (x : ℝ) (e : ℤ) : Prop := key em = standing (x / 2 ^ e)

theorem Cut.shift {em : ExtendedMantissa} {x : ℝ} {e : ℤ} (h : Cut em x e) (k : ℕ) :
    Cut (em >>> k) x (e + k) := by
  change Cut (k.repeat ExtendedMantissa.shiftRightOne em) x (e + k)
  induction k with
  | zero =>
    rw [Nat.cast_zero, add_zero]
    exact h
  | succ k ih =>
    have hhalf : x / 2 ^ (e + (k + 1 : ℕ)) = x / 2 ^ (e + k) / 2 := by
      push_cast
      rw [← add_assoc, zpow_add_one₀ two_ne_zero, div_div]
    unfold Cut at ih ⊢
    rw [hhalf, standing_half, ← ih]
    exact key_shiftRightOne _

/-- An exact mantissa is cut from what it stands for. -/
theorem cut_exact (m : ℕ) (e : ℤ) :
    Cut (.ofMantissaAndAccuracy m .exact) (m * 2 ^ e) e := by
  rw [Cut, mantissa_div, standing_intCast, key_exact]

end Mantissas

section Doubles

/-- The exponent of the last place of doubles of the size of a number. -/
noncomputable def grain (x : ℝ) : ℤ := max (Int.log 2 x - 52) (-1074)

noncomputable def digits (x : ℝ) : ℤ := toEven (standing (x / 2 ^ grain x))

/-- The double nearest to a number that is not negative, the even one of two. -/
noncomputable def nearest (x : ℝ) : ℝ := digits x * 2 ^ grain x

/-- The mantissa and the exponent of a double that is neither zero nor too large. -/
structure Canonical (m : ℕ) (e : ℤ) : Prop where
  pos : 0 < m
  lt : m < 2 ^ 53
  least : -1074 ≤ e
  full : 2 ^ 52 ≤ m ∨ e = -1074

variable {x y : ℝ} {m k : ℕ} {e d : ℤ}

theorem grain_mono (hx : 0 < x) (h : x ≤ y) : grain x ≤ grain y :=
  max_le_max_right _ (Int.sub_le_sub_right (Int.log_mono_right hx h) _)

/-- What lies between two integers is rounded between them. -/
theorem toEven_standing_le {y : ℝ} {j : ℤ} (h : y ≤ j) : toEven (standing y) ≤ j := by
  simpa using toEven_mono (standing_mono h)

theorem le_toEven_standing {y : ℝ} {j : ℤ} (h : j ≤ y) : j ≤ toEven (standing y) := by
  simpa using toEven_mono (standing_mono h)

theorem lt_of_grain (x : ℝ) : x / 2 ^ grain x < 2 ^ 53 := by
  have hlt : x < 2 ^ (Int.log 2 x + 1) := by exact_mod_cast Int.lt_zpow_succ_log_self one_lt_two x
  have hle : (2 : ℝ) ^ (Int.log 2 x + 1) ≤ 2 ^ (53 + grain x) :=
    zpow_le_zpow_right₀ one_le_two (by unfold grain; omega)
  rw [div_lt_iff₀ (by positivity), ← zpow_natCast, ← zpow_add₀ two_ne_zero]
  exact hlt.trans_le hle

theorem le_of_grain (hx : 0 < x) (hg : -1074 < grain x) : 2 ^ 52 ≤ x / 2 ^ grain x := by
  have hle : (2 : ℝ) ^ Int.log 2 x ≤ x := by exact_mod_cast Int.zpow_log_le_self one_lt_two hx
  have hlog : 52 + grain x = Int.log 2 x := by
    unfold grain at hg ⊢
    omega
  rw [le_div_iff₀ (by positivity), ← zpow_natCast, ← zpow_add₀ two_ne_zero]
  exact (by exact_mod_cast hlog ▸ hle)

theorem digits_le (x : ℝ) : digits x ≤ 2 ^ 53 :=
  toEven_standing_le (by exact_mod_cast (lt_of_grain x).le)

theorem le_digits (hx : 0 < x) (hg : -1074 < grain x) : 2 ^ 52 ≤ digits x :=
  le_toEven_standing (by exact_mod_cast le_of_grain hx hg)

/-- Rounding is monotone. -/
theorem nearest_mono (hx : 0 < x) (h : x ≤ y) : nearest x ≤ nearest y := by
  unfold nearest
  rcases (grain_mono hx h).eq_or_lt with hg | hg
  · have hd : digits x ≤ digits y := by
      unfold digits
      rw [hg]
      exact toEven_mono (standing_mono (by gcongr))
    rw [hg]
    gcongr
  · -- The last place of the greater number is worth at least two of the smaller.
    have hx' : (digits x : ℝ) ≤ 2 ^ 53 := by exact_mod_cast digits_le x
    have hy' : (2 ^ 52 : ℝ) ≤ digits y := by
      exact_mod_cast le_digits (hx.trans_le h) (by unfold grain at hg ⊢; omega)
    have hstep : (2 : ℝ) ^ (grain x + 1) ≤ 2 ^ grain y := zpow_le_zpow_right₀ one_le_two hg
    calc (digits x : ℝ) * 2 ^ grain x
        ≤ 2 ^ 53 * 2 ^ grain x := by gcongr
      _ = 2 ^ 52 * 2 ^ (grain x + 1) := by rw [zpow_add_one₀ two_ne_zero]; ring
      _ ≤ digits y * 2 ^ grain y := by gcongr

/-- The size of a number can be read off its leading digits. -/
theorem log_eq_of_floor (hm : 0 < m) (h : ⌊x / 2 ^ e⌋ = m) : Int.log 2 x = m.log2 + e := by
  obtain ⟨hle, hlt⟩ := Int.floor_eq_iff.mp h
  rw [Int.cast_natCast] at hle hlt
  rw [le_div_iff₀ (by positivity)] at hle
  rw [div_lt_iff₀ (by positivity)] at hlt
  have hx : 0 < x := lt_of_lt_of_le (by positivity) hle
  have hlow : (2 : ℝ) ^ m.log2 ≤ m := by exact_mod_cast Nat.log2_self_le hm.ne'
  have hhigh : (m : ℝ) + 1 ≤ 2 ^ (m.log2 + 1) := by exact_mod_cast Nat.lt_log2_self
  apply le_antisymm
  · refine Int.lt_add_one_iff.mp ((Int.lt_zpow_iff_log_lt one_lt_two hx).mp (hlt.trans_le ?_))
    rw [Nat.cast_two, add_right_comm, zpow_add₀ two_ne_zero]
    gcongr
    exact_mod_cast hhigh
  · refine (Int.zpow_le_iff_le_log one_lt_two hx).mp (le_trans ?_ hle)
    rw [Nat.cast_two, zpow_add₀ two_ne_zero]
    gcongr
    exact_mod_cast hlow

theorem log_mantissa (hm : 0 < m) (e : ℤ) : Int.log 2 ((m : ℝ) * 2 ^ e) = m.log2 + e :=
  log_eq_of_floor hm (by rw [mantissa_div, Int.floor_intCast])

theorem Canonical.grain (h : Canonical m e) : grain (m * 2 ^ e) = e := by
  have hlow := h.least
  have hlog : m.log2 < 53 := (Nat.log2_lt h.pos.ne').mpr h.lt
  rw [Rounding.grain, log_mantissa h.pos]
  obtain hfull | rfl := h.full
  · have hlog' : 52 ≤ m.log2 := (Nat.le_log2 h.pos.ne').mpr hfull
    omega
  · omega

/-- Doubles are rounded to themselves. -/
theorem Canonical.nearest (h : Canonical m e) : nearest (m * 2 ^ e) = m * 2 ^ e := by
  rw [Rounding.nearest, digits, h.grain, mantissa_div, standing_intCast, toEven_four_mul,
    Int.cast_natCast]

/-- Doubles are ordered by exponent and mantissa. -/
theorem Canonical.le_iff (h : Canonical m e) (h' : Canonical k d) :
    (m : ℝ) * 2 ^ e ≤ k * 2 ^ d ↔ e < d ∨ e = d ∧ m ≤ k := by
  have hlt : ∀ {m k : ℕ} {e d : ℤ}, Canonical m e → Canonical k d → e < d →
      (m : ℝ) * 2 ^ e < k * 2 ^ d := by
    intro m k e d h h' hed
    have hm : (m : ℝ) < 2 ^ 53 := by exact_mod_cast h.lt
    have hk : (2 ^ 52 : ℝ) ≤ k := by
      have hfull : 2 ^ 52 ≤ k := h'.full.resolve_right (by have hlow := h.least; omega)
      exact_mod_cast hfull
    have hstep : (2 : ℝ) ^ (e + 1) ≤ 2 ^ d := zpow_le_zpow_right₀ one_le_two hed
    calc (m : ℝ) * 2 ^ e
        < 2 ^ 53 * 2 ^ e := by gcongr
      _ = 2 ^ 52 * 2 ^ (e + 1) := by rw [zpow_add_one₀ two_ne_zero]; ring
      _ ≤ k * 2 ^ d := by gcongr
  rcases lt_trichotomy e d with hed | rfl | hed
  · exact iff_of_true (hlt h h' hed).le (.inl hed)
  · have hpos : (0 : ℝ) < 2 ^ e := by positivity
    rw [mul_le_mul_iff_left₀ hpos, Nat.cast_le]
    simp
  · refine iff_of_false (hlt h' h hed).not_ge ?_
    omega

end Doubles

section Rounded

open Format

inductive Rounded (s : Sign) (x : ℝ) : UnpackedFloat → Prop where
  | zero (h : nearest x = 0) : Rounded s x (.zero s)
  | finite {m : ℕ} {e : ℤ} {hm : 0 < m} (hc : Canonical m e) (h : nearest x = m * 2 ^ e) :
    Rounded s x (.finite s m e hm)

variable {x : ℝ} {m : ℕ} {e : ℤ} {acc : Accuracy}

theorem target_eq (t : ℤ) : targetExponent binary64 t = max (t - 53) (-1074) := rfl

theorem Cut.floor {em : ExtendedMantissa} (h : Cut em x e) : ⌊x / 2 ^ e⌋ = em.mantissa := by
  rw [← standing_div_four, ← h, key_mantissa]

theorem mantissa_of (m : ℕ) (acc : Accuracy) :
    (ExtendedMantissa.ofMantissaAndAccuracy m acc).mantissa = m := by
  rcases acc with - | (- | - | -) <;> rfl

/-- What has more digits than the target allows is shifted to it. -/
theorem shift_target (m : ℕ) (e : ℤ) (acc : Accuracy) {k : ℕ}
    (h : targetExponent binary64 (totalExponent m e) = e + k) :
    shiftToTargetExponent binary64 m e acc =
      (ExtendedMantissa.ofMantissaAndAccuracy m acc >>> k, e + k) := by
  simp only [shiftToTargetExponent, shiftToExponent, h]
  simp

theorem target_le {m : ℕ} (hm : m < 2 ^ 53) (he : -1074 ≤ e) :
    targetExponent binary64 (totalExponent m e) ≤ e := by
  have hlog : m.log2 ≤ 52 := by
    rcases m.eq_zero_or_pos with rfl | hpos
    · simp
    · exact Nat.lt_succ_iff.mp ((Nat.log2_lt hpos.ne').mpr hm)
  rw [target_eq, totalExponent]
  omega

/-- The digits of a number need no rounding, but there may be one too many of them. -/
theorem rounded_digits (s : Sign) (hx : 0 < x) {r : ℕ} (hr : (r : ℤ) = digits x) :
    Rounded s x
      (let p := shiftToTargetExponent binary64 r (grain x) .exact
      if h : p.1.mantissa = 0 then .zero s
      else .finite s p.1.mantissa p.2 (Nat.pos_of_ne_zero h)) := by
  have hgrain : -1074 ≤ grain x := le_max_right _ _
  have hvalue : nearest x = r * 2 ^ grain x := by
    rw [nearest, ← hr, Int.cast_natCast]
  have hle : r ≤ 2 ^ 53 := by exact_mod_cast hr ▸ digits_le x
  rcases hle.lt_or_eq with hlt | rfl
  · have hshift : shiftToTargetExponent binary64 r (grain x) .exact =
        (.ofMantissaAndAccuracy r .exact, grain x) := by
      simp only [shiftToTargetExponent, shiftToExponent]
      rw [Int.toNat_eq_zero.mpr (Int.sub_nonpos_of_le (target_le hlt hgrain))]
      simp only [Nat.cast_zero, add_zero]
      rfl
    rw [hshift]
    change Rounded s x (if h : r = 0 then _ else _)
    split
    · rename_i hzero
      exact .zero (by rw [hvalue, hzero, Nat.cast_zero, zero_mul])
    · rename_i hpos
      refine .finite ⟨Nat.pos_of_ne_zero hpos, hlt, hgrain, ?_⟩ hvalue
      rcases hgrain.eq_or_lt with heq | hg
      · exact .inr heq.symm
      · exact .inl (by exact_mod_cast hr ▸ le_digits hx hg)
  · have htarget : targetExponent binary64 (totalExponent (2 ^ 53) (grain x)) = grain x + 1 := by
      rw [target_eq, totalExponent, Nat.log2_two_pow]
      omega
    rw [shift_target _ _ _ htarget]
    change Rounded s x (.finite s (2 ^ 52) (grain x + 1) _)
    refine .finite ⟨by positivity, by decide, by omega, .inl le_rfl⟩ ?_
    rw [hvalue, zpow_add_one₀ two_ne_zero]
    push_cast
    ring

theorem target_grain (hx : 0 < x) (h : ⌊x / 2 ^ e⌋ = m)
    (he : e ≤ targetExponent binary64 (totalExponent m e)) :
    targetExponent binary64 (totalExponent m e) = grain x := by
  rw [target_eq, totalExponent] at he ⊢
  rw [grain]
  rcases m.eq_zero_or_pos with rfl | hm
  · have hlt : x < 2 ^ e := by
      have hone := (Int.floor_eq_iff.mp h).2
      rwa [Nat.cast_zero, Int.cast_zero, zero_add, div_lt_one (by positivity)] at hone
    have hlog : Int.log 2 x < e := (Int.lt_zpow_iff_log_lt one_lt_two hx).mp (by exact_mod_cast hlt)
    rw [Nat.log2_zero] at he ⊢
    omega
  · rw [log_eq_of_floor hm h]
    congr 1
    ring

/-- A mantissa that was cut from a number is rounded to the double nearest to the number. -/
theorem rounded_of_cut (s : Sign) (hx : 0 < x)
    (h : Cut (.ofMantissaAndAccuracy m acc) x e)
    (he : e ≤ targetExponent binary64 (totalExponent m e)) :
    Rounded s x (roundWithAccuracy binary64 s m e acc) := by
  have hgrain := target_grain hx (by rw [h.floor, mantissa_of]) he
  obtain ⟨k, hk⟩ := Int.le.dest (hgrain ▸ he)
  have hcut := h.shift k
  rw [hk] at hcut
  have hround := roundedMantissa_eq (ExtendedMantissa.ofMantissaAndAccuracy m acc >>> k)
  rw [hcut] at hround
  have hshift := shift_target m e acc (hgrain.trans hk.symm)
  rw [hk] at hshift
  unfold roundWithAccuracy
  rw [hshift]
  exact rounded_digits s hx hround

theorem shift_pos (hm : 0 < m) (k : ℕ) : 0 < m <<< k := by
  rw [Nat.shiftLeft_eq]
  positivity

theorem log2_shift (hm : 0 < m) (k : ℕ) : (m <<< k).log2 = m.log2 + k := by
  have hpow : 0 < 2 ^ k := by positivity
  rw [Nat.log2_eq_iff (shift_pos hm k).ne', Nat.shiftLeft_eq, Nat.add_right_comm, Nat.pow_add,
    Nat.pow_add]
  exact ⟨Nat.mul_le_mul_right _ (Nat.log2_self_le hm.ne'),
    Nat.mul_lt_mul_of_pos_right Nat.lt_log2_self hpow⟩

/-- A mantissa with more digits, to a lower exponent. -/
theorem shift_value (m : ℕ) {e d : ℤ} {k : ℕ} (h : e = d + k) :
    (m : ℝ) * 2 ^ e = (m <<< k : ℕ) * 2 ^ d := by
  rw [h, Nat.shiftLeft_eq, Nat.cast_mul, Nat.cast_pow, Nat.cast_two, zpow_add₀ two_ne_zero,
    zpow_natCast]
  ring

/-- A mantissa with an exponent of any size is rounded to the double nearest to it. -/
theorem rounded_round (s : Sign) (hm : 0 < m) (e : ℤ) :
    Rounded s (m * 2 ^ e) (round binary64 s m e) := by
  obtain ⟨k, hk⟩ : ∃ k : ℕ, (e - targetExponent binary64 (totalExponent m e)).toNat = k := ⟨_, rfl⟩
  have hshift : round binary64 s m e = roundWithAccuracy binary64 s (m <<< k) (e - k) .exact := by
    unfold UnpackedFloat.round decreaseExponent
    simp only [hk]
  have hvalue : (m : ℝ) * 2 ^ e = (m <<< k : ℕ) * 2 ^ (e - k) := shift_value m (by ring)
  have htotal : totalExponent (m <<< k) (e - k) = totalExponent m e := by
    rw [totalExponent, totalExponent, log2_shift hm]
    push_cast
    ring
  rw [hshift, hvalue]
  have hpos := shift_pos hm k
  refine rounded_of_cut s (by positivity) (cut_exact _ _) ?_
  rw [htotal]
  omega

/-- A product of doubles is rounded to the nearest. -/
theorem rounded_mul {s t : Sign} {m k : ℕ} {e d : ℤ} (hm : 0 < m) (hk : 0 < k)
    (h : Canonical m e) (h' : Canonical k d) :
    Rounded (s * t) (m * 2 ^ e * (k * 2 ^ d))
      (UnpackedFloat.mul binary64 (.finite s m e hm) (.finite t k d hk)) := by
  have hvalue : (m : ℝ) * 2 ^ e * (k * 2 ^ d) = ((m * k : ℕ) : ℝ) * 2 ^ (e + d) := by
    rw [Nat.cast_mul, zpow_add₀ two_ne_zero]
    ring
  have hmk := Nat.mul_pos hm hk
  rw [hvalue]
  refine rounded_of_cut _ (by positivity) (cut_exact _ _) ?_
  have hlow := h.least
  have hlow' := h'.least
  have hlog : m.log2 ≤ (m * k).log2 := (Nat.le_log2 hmk.ne').mpr
    ((Nat.log2_self_le hm.ne').trans (Nat.le_mul_of_pos_right m hk))
  have hlog' : k.log2 ≤ (m * k).log2 := (Nat.le_log2 hmk.ne').mpr
    ((Nat.log2_self_le hk.ne').trans (Nat.le_mul_of_pos_left k hm))
  rw [target_eq, totalExponent]
  -- A factor that is not full has the least exponent.
  obtain hfull | hleast := h.full
  · have := (Nat.le_log2 hm.ne').mpr hfull
    omega
  · obtain hfull' | hleast' := h'.full
    · have := (Nat.le_log2 hk.ne').mpr hfull'
      omega
    · omega

theorem lower_value (m : ℕ) {e d : ℤ} (h : d ≤ e) :
    (m : ℝ) * 2 ^ e = ((m <<< (e - d).toNat : ℕ) : ℤ) * 2 ^ d := by
  rw [Int.cast_natCast]
  exact shift_value m (by omega)

theorem rounded_toNat (s : Sign) {a : ℤ} (ha : 0 < a) (e : ℤ) :
    Rounded s (a * 2 ^ e) (round binary64 s a.toNat e) := by
  have hcast : (a : ℝ) = (a.toNat : ℕ) := by
    rw [← Int.cast_natCast, Int.toNat_of_nonneg ha.le]
  rw [hcast]
  exact rounded_round s (by omega) _

/-- A sum of positive doubles is rounded to the nearest. -/
theorem rounded_add {m k : ℕ} {e d : ℤ} (hm : 0 < m) (hk : 0 < k) :
    Rounded .positive (m * 2 ^ e + k * 2 ^ d)
      (UnpackedFloat.add binary64 (.finite .positive m e hm) (.finite .positive k d hk)) := by
  rw [lower_value m (min_le_left e d), lower_value k (min_le_right e d), ← add_mul, ← Int.cast_add]
  have hpos : 0 < ((m <<< (e - min e d).toNat : ℕ) : ℤ) + (k <<< (d - min e d).toNat : ℕ) :=
    Int.add_pos_of_pos_of_nonneg (Int.natCast_pos.mpr (shift_pos hm _)) (Int.natCast_nonneg _)
  have hadd : UnpackedFloat.add binary64 (.finite .positive m e hm) (.finite .positive k d hk) =
      UnpackedFloat.normalize binary64
        (((m <<< (e - min e d).toNat : ℕ) : ℤ) + (k <<< (d - min e d).toNat : ℕ)) (min e d)
        .positive := rfl
  rw [hadd, UnpackedFloat.normalize, compare_gt_iff_gt.mpr hpos]
  exact rounded_toNat _ hpos _

/-- A difference of positive doubles is rounded to the nearest, with the sign that it has. -/
theorem rounded_sub {m k : ℕ} {e d : ℤ} (hm : 0 < m) (hk : 0 < k) :
    (k * 2 ^ d < (m * 2 ^ e : ℝ) ∧ Rounded .positive (m * 2 ^ e - k * 2 ^ d)
        (UnpackedFloat.sub binary64 (.finite .positive m e hm) (.finite .positive k d hk))) ∨
      (m * 2 ^ e = (k * 2 ^ d : ℝ) ∧
        UnpackedFloat.sub binary64 (.finite .positive m e hm) (.finite .positive k d hk) =
          .zero .positive) ∨
      (m * 2 ^ e < (k * 2 ^ d : ℝ) ∧ Rounded .negative (k * 2 ^ d - m * 2 ^ e)
        (UnpackedFloat.sub binary64 (.finite .positive m e hm) (.finite .positive k d hk))) := by
  rw [lower_value m (min_le_left e d), lower_value k (min_le_right e d)]
  generalize hM : ((m <<< (e - min e d).toNat : ℕ) : ℤ) = M
  generalize hK : ((k <<< (d - min e d).toNat : ℕ) : ℤ) = K
  have hsub : UnpackedFloat.sub binary64 (.finite .positive m e hm) (.finite .positive k d hk) =
      UnpackedFloat.normalize binary64 (M - K) (min e d) .positive := by
    rw [← hM, ← hK]
    rfl
  have hpos : (0 : ℝ) < 2 ^ min e d := by positivity
  rw [hsub, UnpackedFloat.normalize, mul_lt_mul_iff_left₀ hpos, mul_lt_mul_iff_left₀ hpos,
    mul_left_inj' hpos.ne', Int.cast_lt, Int.cast_lt, Int.cast_inj, ← sub_mul, ← sub_mul,
    ← Int.cast_sub, ← Int.cast_sub]
  rcases lt_trichotomy K M with h | h | h
  · rw [compare_gt_iff_gt.mpr (by omega)]
    exact .inl ⟨h, rounded_toNat _ (by omega) _⟩
  · rw [compare_eq_iff_eq.mpr (by omega)]
    exact .inr (.inl ⟨h.symm, rfl⟩)
  · rw [compare_lt_iff_lt.mpr (by omega), ← neg_sub M K]
    exact .inr (.inr ⟨h, rounded_toNat _ (by omega) _⟩)

/-- The remainder of a division tells where the quotient stands. -/
theorem key_div (j : ℕ) {k : ℕ} (hk : 0 < k) :
    key (.ofMantissaAndAccuracy (j / k) (accuracyOfFraction (j % k) k)) =
      standing ((j : ℝ) / k) := by
  have hlt := Nat.mod_lt j hk
  have hsum : ((j / k : ℕ) : ℝ) * k + (j % k : ℕ) = j := by exact_mod_cast Nat.div_add_mod' j k
  have hkr : (0 : ℝ) < k := by exact_mod_cast hk
  generalize j / k = q at hsum ⊢
  generalize j % k = r at hsum hlt ⊢
  obtain ⟨y, hy⟩ : ∃ y, y = (j : ℝ) / k := ⟨_, rfl⟩
  have hyk : y * k = q * k + r := by rw [hy, div_mul_cancel₀ _ hkr.ne', hsum]
  rw [← hy, accuracyOfFraction]
  split
  · rename_i hzero
    have hyq : y = ((q : ℤ) : ℝ) := by
      rw [hzero, Nat.cast_zero, add_zero] at hyk
      exact mul_right_cancel₀ hkr.ne' hyk
    rw [hyq, standing_intCast, key_exact]
  · rename_i hpos
    have hlow : 2 * q < 2 * y := by
      have hr : (0 : ℝ) < r := by exact_mod_cast Nat.pos_of_ne_zero hpos
      nlinarith
    have hhigh : 2 * y < 2 * q + 2 := by
      have hr : (r : ℝ) < k := by exact_mod_cast hlt
      nlinarith
    rcases lt_trichotomy (2 * r) k with h | h | h
    · have hhalf : 2 * y < 2 * q + 1 := by
        have hr : 2 * (r : ℝ) < k := by exact_mod_cast h
        nlinarith
      rw [compare_lt_iff_lt.mpr h]
      exact key_below hlow hhalf
    · have hhalf : 2 * y = ((2 * q + 1 : ℤ) : ℝ) := by
        have hr : 2 * (r : ℝ) = k := by exact_mod_cast h
        refine mul_right_cancel₀ hkr.ne' ?_
        push_cast
        linarith
      rw [compare_eq_iff_eq.mpr h, key_eq, standing, hhalf, Int.floor_intCast, Int.ceil_intCast]
      ring
    · have hhalf : 2 * q + 1 < 2 * y := by
        have hr : (k : ℝ) < 2 * r := by exact_mod_cast h
        nlinarith
      rw [compare_gt_iff_gt.mpr h]
      exact key_above hhalf hhigh

/-- A quotient of doubles is rounded to the nearest. -/
theorem rounded_div {s t : Sign} {m k : ℕ} {e d : ℤ} (hm : 0 < m) (hk : 0 < k) :
    Rounded (s / t) (m * 2 ^ e / (k * 2 ^ d))
      (UnpackedFloat.div binary64 (.finite s m e hm) (.finite t k d hk)) := by
  obtain ⟨c, hc⟩ : ∃ c, c = min (e - d)
    (targetExponent binary64 (totalExponent m e - totalExponent k d)) := ⟨_, rfl⟩
  obtain ⟨j, hj⟩ : ∃ j : ℕ, e = c + d + j := by
    obtain ⟨j, hj⟩ := Int.le.dest (show c + d ≤ e by omega)
    exact ⟨j, hj.symm⟩
  obtain ⟨n, hn⟩ : ∃ n, n = m <<< j := ⟨_, rfl⟩
  have hnpos : 0 < n := hn ▸ shift_pos hm j
  have hvalue : (m : ℝ) * 2 ^ e / (k * 2 ^ d) / 2 ^ c = n / k := by
    rw [shift_value m hj, ← hn, zpow_add₀ two_ne_zero]
    field_simp
  have hcore : UnpackedFloat.div binary64 (.finite s m e hm) (.finite t k d hk) =
      roundWithAccuracy binary64 (s / t) (n / k) c (accuracyOfFraction (n % k) k) := by
    have hshift : (e - d - c).toNat = j := by omega
    rw [UnpackedFloat.div, divCore]
    simp only [← hc, hshift, ← hn]
  rw [hcore]
  refine rounded_of_cut _ (by positivity) ?_ ?_
  · rw [Cut, hvalue]
    exact key_div n hk
  · have hlog : n.log2 = m.log2 + j := hn ▸ log2_shift hm j
    rw [target_eq, totalExponent, totalExponent] at hc
    rw [target_eq, totalExponent]
    rcases le_or_gt c (-1074) with hleast | hgreater
    · exact le_max_of_le_right hleast
    · -- The quotient has all its digits.
      have hdigits : 2 ^ 52 ≤ n / k := by
        rw [Nat.le_div_iff_mul_le hk]
        calc 2 ^ 52 * k
            ≤ 2 ^ 52 * 2 ^ (k.log2 + 1) := Nat.mul_le_mul_left _ Nat.lt_log2_self.le
          _ = 2 ^ (52 + (k.log2 + 1)) := (Nat.pow_add _ _ _).symm
          _ ≤ 2 ^ n.log2 := Nat.pow_le_pow_right Nat.two_pos (by omega)
          _ ≤ n := Nat.log2_self_le hnpos.ne'
      have hfull := (Nat.le_log2 (by omega)).mpr hdigits
      omega

/-- The root of a whole number and what it leaves tell where the square root stands. -/
theorem key_sqrt (n : ℕ) : key (.ofMantissaAndAccuracy (Nat.sqrt n)
    (if n - Nat.sqrt n * Nat.sqrt n = 0 then .exact
      else .inexact (if n - Nat.sqrt n * Nat.sqrt n ≤ Nat.sqrt n then .lt else .gt))) =
    standing (Real.sqrt n) := by
  have hle := Nat.sqrt_le n
  have hlt := Nat.lt_succ_sqrt n
  generalize Nat.sqrt n = r at hle hlt
  obtain ⟨q, rfl⟩ := Nat.exists_eq_add_of_le hle
  have hq : q < 2 * r + 1 := by
    rw [Nat.succ_mul_succ] at hlt
    omega
  rw [Nat.add_sub_cancel_left]
  rcases Nat.eq_zero_or_pos q with rfl | hpos
  · rw [if_pos rfl, Nat.add_zero, Nat.cast_mul, Real.sqrt_mul_self (Nat.cast_nonneg r),
      ← Int.cast_natCast, standing_intCast, key_exact]
  obtain ⟨y, hy⟩ : ∃ y, y = Real.sqrt (r * r + q : ℕ) := ⟨_, rfl⟩
  have hsquare : (2 * y) ^ 2 = 4 * (r * r + q) := by
    rw [hy, mul_pow, Real.sq_sqrt (Nat.cast_nonneg _)]
    push_cast
    ring
  have hynonneg : 0 ≤ 2 * y := by
    rw [hy]
    positivity
  rw [← hy, if_neg hpos.ne']
  by_cases hqr : q ≤ r
  · have habove : 2 * r < 2 * y := by
      have hqpos : (0 : ℝ) < q := by exact_mod_cast hpos
      refine lt_of_pow_lt_pow_left₀ 2 hynonneg ?_
      rw [hsquare]
      linarith
    have hbelow : 2 * y < 2 * r + 1 := by
      have hqr' : (q : ℝ) ≤ r := by exact_mod_cast hqr
      refine lt_of_pow_lt_pow_left₀ 2 (by positivity) ?_
      rw [hsquare]
      linarith
    rw [if_pos hqr]
    exact key_below habove hbelow
  · have habove : 2 * r + 1 < 2 * y := by
      have hqr' : (r : ℝ) + 1 ≤ q := by exact_mod_cast not_le.mp hqr
      refine lt_of_pow_lt_pow_left₀ 2 hynonneg ?_
      rw [hsquare]
      linarith
    have hbelow : 2 * y < 2 * r + 2 := by
      have hq' : (q : ℝ) < 2 * r + 1 := by exact_mod_cast hq
      refine lt_of_pow_lt_pow_left₀ 2 (by positivity) ?_
      rw [hsquare]
      linarith
    rw [if_neg hqr]
    exact key_above habove hbelow

/-- A square root of a double is rounded to the nearest. -/
theorem rounded_sqrt (hm : 0 < m) (e : ℤ) : Rounded .positive (Real.sqrt (m * 2 ^ e))
    (UnpackedFloat.sqrt binary64 (.finite .positive m e hm)) := by
  have hediv : ∀ a : ℤ, a.ediv 2 = a / 2 := fun _ => rfl
  obtain ⟨t, ht⟩ : ∃ t, t = min (e / 2)
    (targetExponent binary64 ((totalExponent m e + 1) / 2)) := ⟨_, rfl⟩
  obtain ⟨k, hk⟩ : ∃ k : ℕ, e = 2 * t + k := by
    obtain ⟨k, hk⟩ := Int.le.dest (show 2 * t ≤ e by omega)
    exact ⟨k, hk.symm⟩
  obtain ⟨n, hn⟩ : ∃ n, n = m <<< k := ⟨_, rfl⟩
  have hnpos : 0 < n := hn ▸ shift_pos hm k
  have hsqrt : Real.sqrt (m * 2 ^ e) / 2 ^ t = Real.sqrt n := by
    have hvalue : (m : ℝ) * 2 ^ e = n * (2 ^ t) ^ 2 := by
      rw [shift_value m hk, ← hn, mul_comm 2 t, zpow_mul, ← zpow_natCast]
      norm_num
    rw [hvalue, Real.sqrt_mul (Nat.cast_nonneg n), Real.sqrt_sq (by positivity),
      mul_div_cancel_right₀ _ (by positivity)]
  have hcore : UnpackedFloat.sqrt binary64 (.finite .positive m e hm) =
      roundWithAccuracy binary64 .positive (Nat.sqrt n) t
        (if n - Nat.sqrt n * Nat.sqrt n = 0 then .exact
          else .inexact (if n - Nat.sqrt n * Nat.sqrt n ≤ Nat.sqrt n then .lt else .gt)) := by
    have hshift : (e - 2 * t).toNat = k := by omega
    rw [UnpackedFloat.sqrt, sqrtCore]
    simp only [hediv, ← ht, hshift, ← hn]
  rw [hcore]
  refine rounded_of_cut .positive (Real.sqrt_pos.mpr (by positivity)) ?_ ?_
  · rw [Cut, hsqrt]
    exact key_sqrt n
  · -- The root has half as many digits.
    have hdigits : n.log2 / 2 ≤ (Nat.sqrt n).log2 := by
      rw [Nat.le_log2 (Nat.sqrt_pos.mpr hnpos).ne', Nat.le_sqrt, ← Nat.pow_add]
      exact (Nat.pow_le_pow_right Nat.two_pos (by omega)).trans (Nat.log2_self_le hnpos.ne')
    have hlog : n.log2 = m.log2 + k := hn ▸ log2_shift hm k
    rw [target_eq, totalExponent] at ht ⊢
    omega

end Rounded

end Rootfinder.Rounding
