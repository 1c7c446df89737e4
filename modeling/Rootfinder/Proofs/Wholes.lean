import Rootfinder.Proofs.Doubles

namespace Rootfinder.Rounding

open Float.Model Float.Model.UnpackedFloat Format

variable {c : Float} {x : ℝ} {n : ℕ} {i : ℤ}

theorem near_word (hn : 0 < n) (h : n < 2 ^ 53) : Near n.toUInt64.toFloat n := by
  have hword : n.toUInt64.toNat = n := by
    rw [Nat.toUInt64, UInt64.toNat_ofNat', Nat.mod_eq_of_lt (by omega)]
  have hparts : parts n.toUInt64.toFloat = packed (round binary64 .positive n 0) := by
    have hgreat : compare (n : ℤ) 0 = .gt := Int.compare_eq_gt.mpr (by omega)
    change packed (UnpackedFloat.ofUInt64 binary64 n.toUInt64) = _
    simp only [UnpackedFloat.ofUInt64, UnpackedFloat.ofNat, UnpackedFloat.ofInt,
      UnpackedFloat.normalize, hword, hgreat, Int.toNat_natCast]
  have hround := rounded_round .positive hn 0
  rw [zpow_zero, mul_one] at hround
  exact .rounded (by exact_mod_cast hn) hround hparts

/-- A whole number beyond the words is shifted by so many digits that none is lost before it is
rounded. -/
theorem near_large (h : 2 ^ 53 ≤ n) : Near (Float.ofNat n) n := by
  have hn : 0 < n := by omega
  -- The exponent is not so low that the conversion gives up for underflow.
  have hsmall : ¬ (0 : ℤ) < -(2 ^ binary64.exponentBits + n.log2) := by
    have hpow : (2 : ℤ) ^ binary64.exponentBits = 2048 := rfl
    omega
  have hparts : parts (Float.ofNat n) =
      packed (roundWithAccuracy binary64 .positive (n <<< 53) (-53) .exact) := by
    change parts (Float.ofScientific n false 0) = _
    rw [Float.ofScientific, dif_neg (by omega)]
    change packed (UnpackedFloat.ofScientific binary64 n 0) = _
    rw [UnpackedFloat.ofScientific, dif_neg hn.ne', if_neg (by decide), if_neg hsmall,
      if_pos le_rfl, UnpackedFloat.mul]
    change packed (roundWithAccuracy binary64 .positive (n <<< 53 * 1) (-53 + 0) .exact) = _
    rw [mul_one, add_zero]
  have hvalue : (n : ℝ) = (n <<< 53 : ℕ) * 2 ^ (-53 : ℤ) := by
    have hshift := shift_value n (e := 0) (d := -53) (k := 53) rfl
    rwa [zpow_zero, mul_one] at hshift
  refine .rounded (by exact_mod_cast hn) ?_ hparts
  refine rounded_of_cut .positive (by exact_mod_cast hn) (hvalue ▸ cut_exact _ _) ?_
  rw [target_eq, totalExponent, log2_shift hn]
  have : (0 : ℤ) ≤ n.log2 := Int.natCast_nonneg _
  push_cast
  omega

/-- A double that a whole number reaches is not above its double. -/
theorem Worth.le_ofNat (hc : Worth c x) (hn : 0 < n) (h : x ≤ n) : c ≤ Float.ofNat n := by
  obtain hlarge | hsmall := le_or_gt (2 ^ 53) n
  · exact hc.near.le (near_large hlarge) h
  · have hword := near_word hn hsmall
    -- Numbers that fit a double are converted as words, and then multiplied by one.
    have hproduct : Float.ofNat n = n.toUInt64.toFloat * 1.0 := by
      change Float.ofScientific n false 0 = _
      rw [Float.ofScientific, dif_pos ⟨hsmall, by omega⟩]
      rfl
    have hle := hc.near.le hword h
    rw [hproduct]
    obtain ⟨y, hy⟩ | hinf := worth_or_infinity hword.nonneg
    · refine hc.near.le (hy.mul worth_one) ?_
      rw [mul_one]
      exact hc.le hy hle
    · refine le_infinity (not_nan_of_finite hc.isFinite) ?_
      rw [parts_mul, hinf, parts_one]
      rfl

/-- What is not below zero is not above it with the other sign. -/
theorem neg_le_zero (h : 0.0 ≤ c) : -c ≤ 0.0 := by
  have hneg : parts (-c) = packed (parts c).neg := rfl
  have hnonneg := nonneg_iff.mp h
  generalize parts c = u at hneg hnonneg
  cases hnonneg with
  | zero s => exact le_zero (s := -s) hneg (.inl (packed_zero (-s)))
  | @finite m e hm hc he =>
    refine le_zero (s := .negative) hneg (.inr (.inl ⟨m, e, hm, ?_⟩))
    change packed (.finite .negative m e hm) = _
    rw [packed_finite _ _ hc, if_pos he]
  | infinity => exact le_zero (s := .negative) hneg (.inr (.inr (packed_infinity .negative)))

theorem ofInt_le_zero (h : i ≤ 0) : Float.ofInt i ≤ 0.0 := by
  cases i with
  | ofNat n =>
    obtain rfl : n = 0 := by simpa using h
    exact worth_zero.nonneg
  | negSucc n =>
    have hone := worth_one.le_ofNat n.succ_pos (by exact_mod_cast n.succ_pos)
    exact neg_le_zero (Ranking.le_trans worth_one.nonneg hone)

theorem one_le_ofInt (h : 1 ≤ i) : 1.0 ≤ Float.ofInt i := by
  obtain ⟨n, rfl⟩ := Int.eq_ofNat_of_zero_le (show 0 ≤ i by omega)
  exact worth_one.le_ofNat (by omega) (by exact_mod_cast h)

theorem one_lt_ofInt (h : 1 < i) : 1.0 < Float.ofInt i := by
  obtain ⟨n, rfl⟩ := Int.eq_ofNat_of_zero_le (show 0 ≤ i by omega)
  have htwo : Worth 2.0 2 := by
    have hparts : parts 2.0 = .finite .positive (2 ^ 52) (-51) (by decide) := rfl
    have hworth := Worth.finite hparts
    norm_num at hworth
    exact hworth
  exact lt_of_lt_of_le (by decide) (htwo.le_ofNat (by omega) (by exact_mod_cast h))

theorem ofInt_le_one_iff : Float.ofInt i ≤ 1.0 ↔ i ≤ 1 := by
  refine ⟨fun h => not_lt.mp fun hi => not_le_of_lt (one_lt_ofInt hi) h, fun h => ?_⟩
  obtain rfl | hlt := h.eq_or_lt
  · exact (by decide : (1.0 : Float) ≤ 1.0)
  · exact Ranking.le_trans (ofInt_le_zero (by omega)) (by decide)

theorem one_lt_ofInt_iff : 1.0 < Float.ofInt i ↔ 1 < i :=
  ⟨fun h => not_le.mp fun hi => not_le_of_lt h (ofInt_le_one_iff.mpr hi), one_lt_ofInt⟩

theorem ofInt_pos_iff : 0.0 < Float.ofInt i ↔ 0 < i :=
  ⟨fun h => not_le.mp fun hi => not_le_of_lt h (ofInt_le_zero hi),
    fun h => lt_of_lt_of_le (by decide) (one_le_ofInt h)⟩

theorem not_nan_ofInt (i : ℤ) : (Float.ofInt i).isNaN = false := by
  obtain h | h := le_or_gt i 0
  · exact (Ranking.not_nan_of_le (ofInt_le_zero h)).1
  · exact (Ranking.not_nan_of_le (one_le_ofInt h)).2

/-- No whole number has its double between zero and one. -/
theorem not_ofInt_between : ¬ (0.0 < Float.ofInt i ∧ Float.ofInt i < 1.0) :=
  fun h => not_le_of_lt h.2 (one_le_ofInt (ofInt_pos_iff.mp h.1))

section Truncation

variable {a : Float}

/-- Infinities and what is not a number are stored with the greatest exponent, and nothing else
is. -/
theorem isFinite_iff_exponent : Scalar.isFinite a = true ↔
    a.toBits.toNat / Nat.pow 2 52 % Nat.pow 2 11 ≠ 2047 := by
  have hexponent : (@unpackExponent binary64 a.toModel.toBits.toBitVec).toNat =
      a.toBits.toNat / Nat.pow 2 52 % Nat.pow 2 11 := by
    rw [unpackExponent, BitVec.toNat_cast, BitVec.extractLsb_toNat, Nat.shiftRight_eq_div_pow]
    rfl
  have hones : @unpackExponent binary64 a.toModel.toBits.toBitVec =
      -BitVec.ofNat binary64.exponentBits 1 ↔
        a.toBits.toNat / Nat.pow 2 52 % Nat.pow 2 11 = 2047 := by
    rw [← hexponent, ← BitVec.toNat_inj]
    rfl
  have hparts : parts a = UnpackedFloat.unpack binary64 a.toModel.toBits.toBitVec := rfl
  refine Iff.trans ?_ (not_congr hones)
  rw [finite_iff, hparts, UnpackedFloat.unpack]
  split
  · split <;> simp_all
  · split
    · split <;> simp_all
    · simp_all

/-- Exactly the finite doubles have an exact value. -/
theorem isSome_ofFloat?_iff :
    (Decimal.Dyadic.ofFloat? a).isSome = true ↔ Scalar.isFinite a = true := by
  rw [isFinite_iff_exponent]
  simp only [Decimal.Dyadic.ofFloat?]
  split
  · simp_all
  · split <;> simp_all

end Truncation

end Rootfinder.Rounding
