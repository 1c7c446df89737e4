import Mathlib
import Rootfinder.Proofs.Ranking
import Rootfinder.Proofs.Rounding

namespace Rootfinder.Rounding

open Float.Model Float.Model.UnpackedFloat Format

section Packing

theorem leading_toNat (v : BitVec 52) : (1#1 ++ v).toNat = 2 ^ 52 + v.toNat := by
  rw [BitVec.toNat_append, ← Nat.shiftLeft_add_eq_or_of_lt v.isLt]
  rfl

/-- Only doubles are unpacked: with the least exponent, or with a first digit that is not stored. -/
theorem canonical_unpack {x : Float.Model} {s : Sign} {m : ℕ} {e : ℤ} {hm : 0 < m}
    (h : x.unpack = .finite s m e hm) : Canonical m e ∧ e ≤ 971 := by
  have hE : (@unpackExponent binary64 x.toBits.toBitVec).toNat < 2048 := BitVec.isLt _
  have hM : (@unpackMantissa binary64 x.toBits.toBitVec).toNat < 2 ^ 52 := BitVec.isLt _
  have hbias : (binary64.exponentBias : ℤ) + binary64.mantissaBitsWithoutImplicit = 1075 := rfl
  simp only [Float.Model.unpack, UnpackedFloat.unpack, hbias] at h
  split at h
  · split at h <;> cases h
  · rename_i hones
    have hones' : (@unpackExponent binary64 x.toBits.toBitVec).toNat ≠ 2047 :=
      fun hn => hones (BitVec.eq_of_toNat_eq hn)
    split at h
    · split at h
      · cases h
      · rename_i hzero _
        obtain ⟨-, hmantissa, hexponent⟩ := UnpackedFloat.finite.inj h
        have he : e = -1074 := by
          rw [← hexponent, hzero]
          rfl
        exact ⟨⟨hm, by omega, by omega, .inr he⟩, by omega⟩
    · rename_i hzero
      have hzero' : (@unpackExponent binary64 x.toBits.toBitVec).toNat ≠ 0 :=
        fun hn => hzero (BitVec.eq_of_toNat_eq hn)
      obtain ⟨-, hmantissa, hexponent⟩ := UnpackedFloat.finite.inj h
      have hlead : 2 ^ 52 + (@unpackMantissa binary64 x.toBits.toBitVec).toNat = m :=
        (leading_toNat _).symm.trans hmantissa
      exact ⟨⟨hm, by omega, by omega, .inl (by omega)⟩, by omega⟩

/-- No two doubles have the same parts. -/
theorem eq_of_unpack {x y : Float.Model} (h : x.unpack = y.unpack) : x = y := by
  have hbits := (unpack_inj_of_valid x.valid y.valid).mp h
  cases x
  cases y
  rw [Float.Model.mk.injEq]
  exact UInt64.toBitVec_inj.mp hbits

def packed (u : UnpackedFloat) : UnpackedFloat := (Float.Model.pack u).unpack

@[simp]
theorem packed_zero (s : Sign) : packed (.zero s) = .zero s := by
  cases s <;> rfl

@[simp]
theorem packed_infinity (s : Sign) : packed (.infinity s) = .infinity s := by
  cases s <;> rfl

@[simp]
theorem packed_notANumber : packed .notANumber = .notANumber := by
  rw [packed]
  rfl

/-- A stored exponent within the range of doubles stands for a mantissa with a leading digit. -/
theorem unpack_normal (s : Sign) {m b : ℕ} (hm : 0 < m) (hfull : 2 ^ 52 ≤ m) (hlt : m < 2 ^ 53)
    (hb : 0 < b) (hb' : b < 2047) :
    unpack binary64 (packComponents binary64 s (BitVec.ofNat 11 b) (BitVec.ofNat 52 m)) =
      .finite s m (b - 1075) hm := by
  have hE : (BitVec.ofNat 11 b).toNat = b := by
    rw [BitVec.toNat_ofNat, Nat.mod_eq_of_lt (by omega)]
  have hM : (1#1 ++ BitVec.ofNat 52 m).toNat = m := by
    rw [leading_toNat, BitVec.toNat_ofNat]
    omega
  have hones : BitVec.ofNat 11 b ≠ -1#11 := fun hn => by
    have hmax : b = 2047 := hE.symm.trans (congrArg BitVec.toNat hn)
    omega
  have hzero : BitVec.ofNat 11 b ≠ 0#11 := fun hn => by
    have hmin : b = 0 := hE.symm.trans (congrArg BitVec.toNat hn)
    omega
  simp only [UnpackedFloat.unpack, unpackExponent_packComponents, unpackMantissa_packComponents,
    unpackSign_packComponents, Sign.ofBitVec_toBitVec, hones, hzero, if_false, hE, hM]
  rfl

/-- The stored exponent zero stands for a mantissa without a leading digit. -/
theorem unpack_subnormal (s : Sign) {m : ℕ} (hm : 0 < m) (hless : m < 2 ^ 52) :
    unpack binary64 (packComponents binary64 s 0#11 (BitVec.ofNat 52 m)) =
      .finite s m (-1074) hm := by
  have hM : (BitVec.ofNat 52 m).toNat = m := by
    rw [BitVec.toNat_ofNat, Nat.mod_eq_of_lt hless]
  have hpos : BitVec.ofNat 52 m ≠ 0#52 := fun hn => by
    have hmin : m = 0 := hM.symm.trans (congrArg BitVec.toNat hn)
    omega
  have hones : 0#11 ≠ -1#11 := by decide
  simp only [UnpackedFloat.unpack, unpackExponent_packComponents, unpackMantissa_packComponents,
    unpackSign_packComponents, Sign.ofBitVec_toBitVec, hones, hpos, if_false, if_true, dif_neg,
    not_false_eq_true, hM]
  rfl

/-- A double that is too large is packed as infinite, and any other as it is. -/
theorem packed_finite {m : ℕ} {e : ℤ} (s : Sign) (hm : 0 < m) (h : Canonical m e) :
    packed (.finite s m e hm) = if e ≤ 971 then .finite s m e hm else .infinity s := by
  have hlow := h.least
  have hlt := h.lt
  obtain ⟨b, hb⟩ : ∃ b : ℕ, e + 1075 = b := ⟨(e + 1075).toNat, by omega⟩
  have hbias : (e + (binary64.exponentBias : ℤ) + binary64.mantissaBitsWithoutImplicit).toNat = b :=
    by change (e + 1023 + 52).toNat = b; omega
  have hpacked : packed (.finite s m e hm) = unpack binary64 (if 2048 ≤ b + 1 then
      packedInfinity binary64 s else if m.log2 + 1 = 53 then
        packComponents binary64 s (BitVec.ofNat 11 b) (BitVec.ofNat 52 m)
      else packComponents binary64 s 0#11 (BitVec.ofNat 52 m)) := by
    rw [← hbias]
    rfl
  rw [hpacked]
  by_cases he : e ≤ 971
  · rw [if_neg (by omega), if_pos he]
    by_cases hlog : m.log2 + 1 = 53
    · have hfull : 2 ^ 52 ≤ m := (Nat.le_log2 hm.ne').mp (by omega)
      obtain rfl : e = b - 1075 := by omega
      rw [if_pos hlog, unpack_normal s hm hfull hlt (by omega) (by omega)]
    · have hless : m < 2 ^ 52 := by
        rw [← Nat.log2_lt hm.ne']
        have := (Nat.log2_lt hm.ne').mpr hlt
        omega
      obtain rfl : e = -1074 := h.full.resolve_left (by omega)
      rw [if_neg hlog, unpack_subnormal s hm hless]
  · rw [if_pos (by omega), if_neg he]
    exact packed_infinity s

end Packing

section Order

open Ranking

variable {a b : Float} {m k : ℕ} {e d : ℤ} {x y : ℝ} {u v : UnpackedFloat}

def parts (a : Float) : UnpackedFloat := a.toModel.unpack

theorem rank_eq (a : Float) : rank a = unpacked (parts a) := rfl

theorem parts_nan : a.isNaN = true ↔ parts a = .notANumber := Ranking.isNaN_iff

theorem not_nan_iff : a.isNaN = false ↔ parts a ≠ .notANumber := by
  rw [← Bool.not_eq_true, parts_nan]

theorem parts_mul (a b : Float) :
    parts (a * b) = packed (UnpackedFloat.mul binary64 (parts a) (parts b)) := rfl

theorem parts_sub (a b : Float) :
    parts (a - b) = packed (UnpackedFloat.sub binary64 (parts a) (parts b)) := rfl

theorem parts_add (a b : Float) :
    parts (a + b) = packed (UnpackedFloat.add binary64 (parts a) (parts b)) := rfl

theorem parts_div (a b : Float) :
    parts (a / b) = packed (UnpackedFloat.div binary64 (parts a) (parts b)) := rfl

theorem parts_sqrt (a : Float) :
    parts (Float.sqrt a) = packed (UnpackedFloat.sqrt binary64 (parts a)) := rfl

theorem parts_abs (a : Float) : parts a.abs = packed (parts a).abs := rfl

theorem parts_zero : parts 0.0 = .zero .positive := rfl

theorem parts_one : parts 1.0 = .finite .positive (2 ^ 52) (-52) (by decide) := rfl

theorem parts_half : parts 0.5 = .finite .positive (2 ^ 52) (-53) (by decide) := rfl

/-- What ranks no higher than a number is a number, and no greater. -/
theorem le_of_rank (hb : b.isNaN = false) (h : rank a ≤ rank b) : a ≤ b := by
  have ha : a.isNaN = false := by
    by_contra hn
    exact (rank_lt_nan hb (by simpa using hn)).not_ge h
  exact (le_iff ha hb).mpr h

theorem rank_zero : rank 0.0 = toLex (0, toLex (0, 0)) := rfl

inductive Nonneg : UnpackedFloat → Prop where
  | zero (s : Sign) : Nonneg (.zero s)
  | finite {m : ℕ} {e : ℤ} {hm : 0 < m} (h : Canonical m e) (he : e ≤ 971) :
    Nonneg (.finite .positive m e hm)
  | infinity : Nonneg (.infinity .positive)

theorem Nonneg.zero_le (h : Nonneg u) : toLex (0, toLex (0, 0)) ≤ unpacked u := by
  cases h <;> simp [unpacked, Prod.Lex.toLex_le_toLex]

theorem nonneg_iff : 0.0 ≤ a ↔ Nonneg (parts a) := by
  constructor
  · intro h
    obtain ⟨h0, ha⟩ := not_nan_of_le h
    rw [le_iff h0 ha, rank_zero, rank_eq] at h
    rw [not_nan_iff] at ha
    rcases hp : parts a with (- | -) | - | s | ⟨- | -, m, e, hm⟩ <;> rw [hp] at h ha
    case infinity.positive => exact .infinity
    case notANumber => exact absurd rfl ha
    case zero => exact .zero s
    case finite.positive => exact .finite (canonical_unpack hp).1 (canonical_unpack hp).2
    all_goals simp [unpacked, Prod.Lex.toLex_le_toLex] at h
  · intro h
    refine le_of_rank ?_ h.zero_le
    rw [not_nan_iff]
    intro hn
    rw [hn] at h
    cases h

/-- A double is what it is rounded to. -/
theorem rounded_self (s : Sign) (hm : 0 < m) (h : Canonical m e) :
    Rounded s (m * 2 ^ e) (.finite s m e hm) := .finite h h.nearest

/-- What is rounded to the nearest keeps its order, also where it becomes infinite. -/
theorem Rounded.le (h : Rounded .positive x u) (h' : Rounded .positive y v) (hx : 0 < x)
    (hxy : x ≤ y) : unpacked (packed u) ≤ unpacked (packed v) := by
  have hle := nearest_mono hx hxy
  cases h with
  | zero h =>
    cases h' with
    | zero h' => simp
    | finite hc h' =>
      rw [packed_finite _ _ hc]
      split <;> simp [unpacked, Prod.Lex.toLex_le_toLex]
  | @finite m e hm hc h =>
    have hpos : (0 : ℝ) < m * 2 ^ e := by positivity
    cases h' with
    | zero h' =>
      rw [h, h'] at hle
      exact absurd hle hpos.not_ge
    | @finite k d hk hc' h' =>
      rw [h, h', hc.le_iff hc'] at hle
      rw [packed_finite _ _ hc, packed_finite _ _ hc']
      split
      · split
        · obtain hlt | ⟨rfl, hle⟩ := hle
          · simp [unpacked, Prod.Lex.toLex_le_toLex, hlt]
          · simp [unpacked, Prod.Lex.toLex_le_toLex, hle]
        · simp [unpacked, Prod.Lex.toLex_le_toLex]
      · rw [if_neg (by omega)]

/-- What is rounded keeps its sign, and is a number. -/
theorem Rounded.packed {s : Sign} (h : Rounded s x u) : packed u = .zero s ∨
    (∃ m e hm, packed u = .finite s m e hm ∧ Canonical m e ∧ e ≤ 971) ∨
      packed u = .infinity s := by
  cases h with
  | zero h => exact .inl (packed_zero s)
  | @finite m e hm hc h =>
    rw [packed_finite _ _ hc]
    split
    · exact .inr (.inl ⟨m, e, hm, rfl, hc, ‹_›⟩)
    · exact .inr (.inr rfl)

/-- What is rounded stays finite if some double is greater. -/
theorem Rounded.packed_of_le {s : Sign} (h : Rounded s x u) (hx : 0 < x) (hc : Canonical k d)
    (hd : d ≤ 971) (hle : x ≤ k * 2 ^ d) : Rounding.packed u = u := by
  have hle' := nearest_mono hx hle
  rw [hc.nearest] at hle'
  cases h with
  | zero h => exact packed_zero s
  | finite hc' h =>
    rw [h, hc'.le_iff hc] at hle'
    rw [packed_finite _ _ hc', if_pos (by omega)]

/-- Positive doubles are ordered as the numbers that they stand for. -/
theorem le_iff_value {hm : 0 < m} {hk : 0 < k} (ha : parts a = .finite .positive m e hm)
    (hb : parts b = .finite .positive k d hk) : a ≤ b ↔ (m : ℝ) * 2 ^ e ≤ k * 2 ^ d := by
  have hnan : ∀ {x : Float} {m : ℕ} {e : ℤ} {hm : 0 < m}, parts x = .finite .positive m e hm →
      x.isNaN = false := by
    intro x m e hm hx
    rw [not_nan_iff, hx]
    exact nofun
  rw [le_iff (hnan ha) (hnan hb), rank_eq, rank_eq, ha, hb,
    (canonical_unpack ha).1.le_iff (canonical_unpack hb).1]
  simp [unpacked, Prod.Lex.toLex_le_toLex]

theorem finite_iff : Scalar.isFinite a = true ↔
    parts a ≠ .notANumber ∧ ∀ s, parts a ≠ .infinity s := by
  have hinf : a.isInf = true ↔ ∃ s, parts a = .infinity s := by
    change (parts a).isInf = true ↔ _
    cases parts a <;> simp [UnpackedFloat.isInf]
  have hfinite : Scalar.isFinite a = (!a.isNaN && !a.isInf) := rfl
  rw [hfinite, Bool.and_eq_true, Bool.not_eq_true', Bool.not_eq_true', ← Bool.not_eq_true,
    ← Bool.not_eq_true, parts_nan, hinf, not_exists]

end Order

section Values

open Ranking

variable {a b c : Float} {x y : ℝ}

/-- A double that is finite and not below zero, with the number that it stands for. -/
inductive Worth (a : Float) : ℝ → Prop where
  | zero {s : Sign} (h : parts a = .zero s) : Worth a 0
  | finite {m : ℕ} {e : ℤ} {hm : 0 < m} (h : parts a = .finite .positive m e hm) :
    Worth a (m * 2 ^ e)

inductive Near (a : Float) : ℝ → Prop where
  | zero {s : Sign} (h : parts a = .zero s) : Near a 0
  | rounded {x : ℝ} {u : UnpackedFloat} (hx : 0 < x) (hu : Rounded .positive x u)
    (h : parts a = packed u) : Near a x

theorem worth_zero : Worth 0.0 0 := .zero parts_zero

theorem worth_one : Worth 1.0 1 := by
  have h := Worth.finite parts_one
  norm_num at h
  exact h

theorem worth_half : Worth 0.5 (1 / 2) := by
  have h := Worth.finite parts_half
  norm_num at h ⊢
  exact h

theorem worth_of (h : 0.0 ≤ a) (hfinite : Scalar.isFinite a = true) : ∃ x, Worth a x := by
  have hnonneg := nonneg_iff.mp h
  generalize hp : parts a = u at hnonneg
  cases hnonneg with
  | zero s => exact ⟨0, .zero hp⟩
  | finite hc he => exact ⟨_, .finite hp⟩
  | infinity => exact absurd hp ((finite_iff.mp hfinite).2 _)

theorem Worth.value_nonneg (h : Worth a x) : 0 ≤ x := by
  cases h with
  | zero h => exact le_rfl
  | finite h => positivity

theorem Worth.nonneg (h : Worth a x) : 0.0 ≤ a := by
  rw [nonneg_iff]
  cases h with
  | zero h => exact h ▸ .zero _
  | finite h => exact h ▸ .finite (canonical_unpack h).1 (canonical_unpack h).2

theorem Worth.isFinite (h : Worth a x) : Scalar.isFinite a = true := by
  rw [finite_iff]
  cases h <;> rename_i h <;> simp [h]

theorem Worth.near (h : Worth a x) : Near a x := by
  cases h with
  | zero h => exact .zero h
  | @finite m e hm h =>
    obtain ⟨hc, he⟩ := canonical_unpack h
    refine .rounded (by positivity) (rounded_self _ hm hc) ?_
    rw [h, packed_finite _ _ hc, if_pos he]

theorem Worth.le (ha : Worth a x) (hb : Worth b y) (h : a ≤ b) : x ≤ y := by
  cases ha with
  | zero ha => exact hb.value_nonneg
  | @finite m e hm ha =>
    cases hb with
    | zero hb =>
      obtain ⟨hna, hnb⟩ := not_nan_of_le h
      rw [le_iff hna hnb, rank_eq, rank_eq, ha, hb] at h
      simp [unpacked, Prod.Lex.toLex_le_toLex] at h
    | finite hb => exact (le_iff_value ha hb).mp h

theorem Near.nonneg (h : Near a x) : 0.0 ≤ a := by
  rw [nonneg_iff]
  cases h with
  | zero h => exact h ▸ .zero _
  | rounded hx hu h =>
    obtain hz | ⟨m, e, hm, hf, hc, he⟩ | hi := hu.packed
    · exact h ▸ hz ▸ .zero _
    · exact h ▸ hf ▸ .finite hc he
    · exact h ▸ hi ▸ .infinity

/-- Rounding keeps the order of numbers. -/
theorem Near.le (ha : Near a x) (hb : Near b y) (h : x ≤ y) : a ≤ b := by
  obtain ⟨-, hnan⟩ := not_nan_of_le hb.nonneg
  refine le_of_rank hnan ?_
  cases ha with
  | zero ha =>
    rw [rank_eq, ha]
    exact (nonneg_iff.mp hb.nonneg).zero_le
  | rounded hx hu ha =>
    cases hb with
    | zero hb => exact absurd h hx.not_ge
    | rounded hy hv hb =>
      rw [rank_eq, rank_eq, ha, hb]
      exact hu.le hv hx h

theorem Worth.mul (ha : Worth a x) (hb : Worth b y) : Near (a * b) (x * y) := by
  cases ha with
  | @zero s ha =>
    rw [zero_mul]
    cases hb with
    | @zero t hb => exact .zero (by rw [parts_mul, ha, hb, UnpackedFloat.mul, packed_zero])
    | finite hb => exact .zero (by rw [parts_mul, ha, hb, UnpackedFloat.mul, packed_zero])
  | @finite m e hm ha =>
    cases hb with
    | @zero t hb =>
      rw [mul_zero]
      exact .zero (by rw [parts_mul, ha, hb, UnpackedFloat.mul, packed_zero])
    | @finite k d hk hb =>
      refine .rounded (by positivity)
        (rounded_mul (s := .positive) (t := .positive) hm hk (canonical_unpack ha).1
          (canonical_unpack hb).1) ?_
      rw [parts_mul, ha, hb]

theorem Worth.sub (ha : Worth a x) (hb : Worth b y) (h : y ≤ x) : Near (a - b) (x - y) := by
  cases hb with
  | @zero t hb =>
    rw [sub_zero]
    cases ha with
    | @zero s ha =>
      obtain ⟨r, hr⟩ : ∃ r, UnpackedFloat.sub binary64 (.zero s) (.zero t) = .zero r := by
        cases s <;> cases t <;> exact ⟨_, rfl⟩
      exact .zero (by rw [parts_sub, ha, hb, hr, packed_zero])
    | @finite m e hm ha =>
      have hc := (canonical_unpack ha).1
      refine .rounded (by positivity) (rounded_self _ hm hc) ?_
      simp [parts_sub, ha, hb, UnpackedFloat.sub]
  | @finite k d hk hb =>
    have hpos : (0 : ℝ) < k * 2 ^ d := by positivity
    cases ha with
    | zero ha => exact absurd h hpos.not_ge
    | @finite m e hm ha =>
      obtain ⟨hlt, hu⟩ | ⟨heq, hu⟩ | ⟨hlt, -⟩ := rounded_sub (e := e) (d := d) hm hk
      · exact .rounded (sub_pos.mpr hlt) hu (by rw [parts_sub, ha, hb])
      · rw [heq, sub_self]
        exact .zero (by rw [parts_sub, ha, hb, hu, packed_zero])
      · exact absurd h hlt.not_ge

theorem Worth.add (ha : Worth a x) (hb : Worth b y) : Near (a + b) (x + y) := by
  cases ha with
  | @zero s ha =>
    rw [zero_add]
    cases hb with
    | @zero t hb =>
      obtain ⟨r, hr⟩ : ∃ r, UnpackedFloat.add binary64 (.zero s) (.zero t) = .zero r := by
        cases s <;> cases t <;> exact ⟨_, rfl⟩
      exact .zero (by rw [parts_add, ha, hb, hr, packed_zero])
    | @finite k d hk hb =>
      have hc := (canonical_unpack hb).1
      refine .rounded (by positivity) (rounded_self _ hk hc) ?_
      simp [parts_add, ha, hb, UnpackedFloat.add]
  | @finite m e hm ha =>
    cases hb with
    | zero hb =>
      rw [add_zero]
      have hc := (canonical_unpack ha).1
      refine .rounded (by positivity) (rounded_self _ hm hc) ?_
      simp [parts_add, ha, hb, UnpackedFloat.add]
    | @finite k d hk hb =>
      exact .rounded (by positivity) (rounded_add hm hk) (by rw [parts_add, ha, hb])

theorem Worth.sqrt (ha : Worth a x) : Near (Float.sqrt a) (Real.sqrt x) := by
  cases ha with
  | @zero s ha =>
    rw [Real.sqrt_zero]
    exact .zero (by rw [parts_sqrt, ha, UnpackedFloat.sqrt, packed_zero])
  | @finite m e hm ha =>
    exact .rounded (by positivity) (rounded_sqrt hm e) (by rw [parts_sqrt, ha])

end Values

section Inequalities

open Ranking

variable {a b p : Float}

/-- Numbers can be compared. -/
theorem lt_or_le (ha : a.isNaN = false) (hb : b.isNaN = false) : a < b ∨ b ≤ a := by
  rw [lt_iff ha hb, le_iff hb ha]
  exact lt_or_ge _ _

theorem le_of_lt (h : a < b) : a ≤ b := by
  change (decide (a.toModel < b.toModel)) = true at h
  change (decide (a.toModel ≤ b.toModel)) = true
  rw [decide_eq_true_iff] at h ⊢
  change ((parts a).compare (parts b) == some .lt) = true at h
  change ((parts a).compare (parts b)).any (·.isLE) = true
  rw [eq_of_beq h]
  rfl

theorem not_nan_of_lt (h : a < b) : a.isNaN = false ∧ b.isNaN = false :=
  not_nan_of_le (Rounding.le_of_lt h)

theorem lt_of_lt_of_le {c : Float} (h : a < b) (h' : b ≤ c) : a < c := by
  obtain ⟨ha, hb⟩ := not_nan_of_lt h
  obtain ⟨-, hc⟩ := not_nan_of_le h'
  rw [lt_iff ha hb] at h
  rw [le_iff hb hc] at h'
  rw [lt_iff ha hc]
  exact h.trans_le h'

theorem not_le_of_lt (h : a < b) : ¬ b ≤ a := by
  intro hle
  obtain ⟨hb, ha⟩ := not_nan_of_le hle
  rw [lt_iff ha hb] at h
  rw [le_iff hb ha] at hle
  exact hle.not_gt h

theorem le_infinity (ha : a.isNaN = false) (hb : parts b = .infinity .positive) : a ≤ b := by
  refine le_of_rank ?_ ?_
  · rw [not_nan_iff, hb]
    exact nofun
  · rw [not_nan_iff] at ha
    rw [rank_eq, rank_eq, hb]
    rcases hp : parts a with (- | -) | - | - | ⟨- | -, m, e, hm⟩ <;>
      simp_all [unpacked, Prod.Lex.toLex_le_toLex]

theorem infinity_of_le (ha : parts a = .infinity .positive) (h : a ≤ b) :
    parts b = .infinity .positive := by
  obtain ⟨hna, hnb⟩ := not_nan_of_le h
  rw [le_iff hna hnb, rank_eq, rank_eq, ha] at h
  rw [not_nan_iff] at hnb
  rcases hp : parts b with (- | -) | - | s | ⟨- | -, m, e, hm⟩ <;> rw [hp] at h hnb
  case notANumber => exact absurd rfl hnb
  all_goals simp [unpacked, Prod.Lex.toLex_le_toLex] at h

/-- What lies between zero and a finite number is finite. -/
theorem isFinite_of_le (ha : 0.0 ≤ a) (h : a ≤ b) (hb : Scalar.isFinite b = true) :
    Scalar.isFinite a = true := by
  have hnonneg := nonneg_iff.mp ha
  generalize hp : parts a = u at hnonneg
  rw [finite_iff, hp]
  cases hnonneg with
  | infinity => exact absurd (infinity_of_le hp h) ((finite_iff.mp hb).2 _)
  | _ => simp

/-- A factor between zero and one makes no number greater. -/
theorem mul_le_self (ha : 0.0 ≤ a) (hfinite : Scalar.isFinite a = true) (hb : 0.0 ≤ b)
    (hone : b ≤ 1.0) : 0.0 ≤ a * b ∧ a * b ≤ a := by
  obtain ⟨x, hx⟩ := worth_of ha hfinite
  obtain ⟨y, hy⟩ := worth_of hb (isFinite_of_le hb hone worth_one.isFinite)
  have hle : x * y ≤ x := mul_le_of_le_one_right hx.value_nonneg (hy.le worth_one hone)
  exact ⟨(hx.mul hy).nonneg, (hx.mul hy).le hx.near hle⟩

theorem mul_le_self' (ha : 0.0 ≤ a) (hfinite : Scalar.isFinite a = true) (hb : 0.0 ≤ b)
    (hone : b ≤ 1.0) : 0.0 ≤ b * a ∧ b * a ≤ a := by
  obtain ⟨x, hx⟩ := worth_of ha hfinite
  obtain ⟨y, hy⟩ := worth_of hb (isFinite_of_le hb hone worth_one.isFinite)
  have hle : y * x ≤ x := mul_le_of_le_one_left hx.value_nonneg (hy.le worth_one hone)
  exact ⟨(hy.mul hx).nonneg, (hy.mul hx).le hx.near hle⟩

/-- A number that is no greater leaves no more than there was. -/
theorem sub_le_left (hb : 0.0 ≤ b) (hba : b ≤ a) (hfinite : Scalar.isFinite a = true) :
    0.0 ≤ a - b ∧ a - b ≤ a := by
  obtain ⟨x, hx⟩ := worth_of (Ranking.le_trans hb hba) hfinite
  obtain ⟨y, hy⟩ := worth_of hb (isFinite_of_le hb hba hfinite)
  have hsub := hx.sub hy (hy.le hx hba)
  exact ⟨hsub.nonneg, hsub.le hx.near (sub_le_self x hy.value_nonneg)⟩

/-- A finite number that is not below zero, or infinity. -/
theorem worth_or_infinity (ha : 0.0 ≤ a) : (∃ x, Worth a x) ∨ parts a = .infinity .positive := by
  by_cases hfinite : Scalar.isFinite a = true
  · exact .inl (worth_of ha hfinite)
  · have hnonneg := nonneg_iff.mp ha
    rw [finite_iff] at hfinite
    generalize parts a = u at hfinite hnonneg ⊢
    cases hnonneg with
    | infinity => exact .inr rfl
    | _ => simp at hfinite

/-- What rounds a monotone function is monotone, if it takes infinity to infinity. -/
theorem mono_of_near {f : Float → Float} {g : ℝ → ℝ}
    (hf : ∀ {c z}, Worth c z → Near (f c) (g z))
    (hinf : ∀ {c}, parts c = .infinity .positive → parts (f c) = .infinity .positive)
    (hg : ∀ {x y}, x ≤ y → g x ≤ g y) (ha : 0.0 ≤ a) (h : a ≤ b) : f a ≤ f b := by
  obtain ⟨y, hy⟩ | hb := worth_or_infinity (Ranking.le_trans ha h)
  · obtain ⟨x, hx⟩ := worth_of ha (isFinite_of_le ha h hy.isFinite)
    exact (hf hx).le (hf hy) (hg (hx.le hy h))
  · refine le_infinity ?_ (hinf hb)
    obtain ⟨x, hx⟩ | ha := worth_or_infinity ha
    · exact (not_nan_of_le (hf hx).nonneg).2
    · rw [not_nan_iff, hinf ha]
      exact nofun

theorem sqrt_infinity (ha : parts a = .infinity .positive) :
    parts (Float.sqrt a) = .infinity .positive := by
  rw [parts_sqrt, ha, UnpackedFloat.sqrt, packed_infinity]

/-- Square roots are monotone. -/
theorem sqrt_mono (ha : 0.0 ≤ a) (h : a ≤ b) : Float.sqrt a ≤ Float.sqrt b :=
  mono_of_near (g := Real.sqrt) (fun hc => hc.sqrt) sqrt_infinity Real.sqrt_le_sqrt ha h

def NotBelow (a : Float) : Prop := a.isNaN = true ∨ 0.0 ≤ a

theorem NotBelow.nonneg (h : NotBelow a) (ha : a.isNaN = false) : 0.0 ≤ a :=
  h.resolve_left fun hn => Bool.false_ne_true (ha.symm.trans hn)

theorem NotBelow.of_nan (h : parts a = .notANumber) : NotBelow a := .inl (parts_nan.mpr h)

theorem NotBelow.of_parts {u : UnpackedFloat} (h : parts a = u) (hu : Nonneg u) : NotBelow a :=
  .inr (nonneg_iff.mpr (h ▸ hu))

theorem nan_or (a : Float) : parts a = .notANumber ∨ a.isNaN = false := by
  rw [← parts_nan, ← Bool.not_eq_true]
  exact em _

theorem NotBelow.cases (h : NotBelow a) :
    parts a = .notANumber ∨ (∃ x, Worth a x) ∨ parts a = .infinity .positive :=
  (nan_or a).imp_right fun ha => worth_or_infinity (h.nonneg ha)

/-- Squares are not below zero. -/
theorem notBelow_square (a : Float) : NotBelow (a * a) := by
  rcases hp : parts a with s | - | s | ⟨s, m, e, hm⟩
  case notANumber => exact .of_nan (by rw [parts_mul, hp]; rfl)
  case infinity =>
    refine .of_parts (u := .infinity .positive) ?_ .infinity
    rw [parts_mul, hp]
    cases s <;> rfl
  case zero =>
    refine .of_parts (u := .zero .positive) ?_ (.zero _)
    rw [parts_mul, hp]
    cases s <;> rfl
  case finite =>
    have hc := (canonical_unpack hp).1
    have hround := rounded_mul (s := s) (t := s) hm hm hc hc
    have hsign : s * s = .positive := by cases s <;> rfl
    rw [hsign] at hround
    refine .inr (Near.rounded (by positivity) hround ?_).nonneg
    rw [parts_mul, hp]

theorem nan_add (h : parts a = .notANumber ∨ parts b = .notANumber) :
    parts (a + b) = .notANumber := by
  obtain h | h := h
  · simp [parts_add, h, UnpackedFloat.add]
  · cases ha : parts a <;> simp [parts_add, h, ha, UnpackedFloat.add]

/-- Sums are not below zero if their terms are not. -/
theorem notBelow_add (ha : NotBelow a) (hb : NotBelow b) : NotBelow (a + b) := by
  obtain hna | ha := ha.cases
  · exact .of_nan (nan_add (.inl hna))
  obtain hnb | hb := hb.cases
  · exact .of_nan (nan_add (.inr hnb))
  obtain ⟨x, hx⟩ | ha := ha
  · obtain ⟨y, hy⟩ | hb := hb
    · exact .inr (hx.add hy).nonneg
    · refine .of_parts ?_ .infinity
      cases hx <;> rename_i ha <;> simp [parts_add, ha, hb, UnpackedFloat.add]
  · refine .of_parts ?_ .infinity
    obtain ⟨y, hy⟩ | hb := hb
    · cases hy <;> rename_i hb <;> simp [parts_add, ha, hb, UnpackedFloat.add]
    · rw [parts_add, ha, hb]
      rfl

theorem nan_mul (h : parts a = .notANumber ∨ parts b = .notANumber) :
    parts (a * b) = .notANumber := by
  obtain h | h := h
  · simp [parts_mul, h, UnpackedFloat.mul]
  · cases ha : parts a <;> simp [parts_mul, h, ha, UnpackedFloat.mul]

/-- Products are not below zero if their factors are not. -/
theorem notBelow_mul (ha : NotBelow a) (hb : NotBelow b) : NotBelow (a * b) := by
  obtain hna | ha := ha.cases
  · exact .of_nan (nan_mul (.inl hna))
  obtain hnb | hb := hb.cases
  · exact .of_nan (nan_mul (.inr hnb))
  have hinf : parts (a * b) = packed (.infinity (.positive * .positive)) → NotBelow (a * b) :=
    fun h => .of_parts (h.trans (packed_infinity _)) .infinity
  obtain ⟨x, hx⟩ | ha := ha
  · obtain ⟨y, hy⟩ | hb := hb
    · exact .inr (hx.mul hy).nonneg
    · cases hx with
      | zero ha => exact .of_nan (by simp [parts_mul, ha, hb, UnpackedFloat.mul])
      | finite ha => exact hinf (by rw [parts_mul, ha, hb, UnpackedFloat.mul])
  · obtain ⟨y, hy⟩ | hb := hb
    · cases hy with
      | zero hb => exact .of_nan (by simp [parts_mul, ha, hb, UnpackedFloat.mul])
      | finite hb => exact hinf (by rw [parts_mul, ha, hb, UnpackedFloat.mul])
    · exact hinf (by rw [parts_mul, ha, hb, UnpackedFloat.mul])

/-- Magnitudes are not below zero. -/
theorem notBelow_abs (a : Float) : NotBelow a.abs := by
  rcases hp : parts a with s | - | s | ⟨s, m, e, hm⟩
  case notANumber => exact .of_nan (by rw [parts_abs, hp]; rfl)
  case infinity =>
    exact .of_parts (by rw [parts_abs, hp, UnpackedFloat.abs, packed_infinity]) .infinity
  case zero => exact .of_parts (by rw [parts_abs, hp, UnpackedFloat.abs, packed_zero]) (.zero _)
  case finite =>
    obtain ⟨hc, he⟩ := canonical_unpack hp
    refine .of_parts (u := .finite .positive m e hm) ?_ (.finite hc he)
    rw [parts_abs, hp, UnpackedFloat.abs, packed_finite _ _ hc, if_pos he]

/-- Square roots are not below zero. -/
theorem notBelow_sqrt (ha : NotBelow a) : NotBelow (Float.sqrt a) := by
  obtain hna | ⟨x, hx⟩ | ha := ha.cases
  · exact .of_nan (by rw [parts_sqrt, hna]; rfl)
  · exact .inr hx.sqrt.nonneg
  · exact .of_parts (sqrt_infinity ha) .infinity

theorem half_infinity (ha : parts a = .infinity .positive) :
    parts (0.5 * a) = .infinity .positive := by
  rw [parts_mul, ha, parts_half]
  rfl

/-- Halves keep the order of numbers that are not below zero. -/
theorem half_mono (ha : 0.0 ≤ a) (h : a ≤ b) : 0.5 * a ≤ 0.5 * b :=
  mono_of_near (f := (0.5 * ·)) (g := (1 / 2 * ·)) worth_half.mul half_infinity
    (fun hxy => mul_le_mul_of_nonneg_left hxy (by norm_num)) ha h

/-- Of two numbers the one with the smaller half is smaller. -/
theorem lt_of_half_lt (hb : NotBelow b) (h : 0.5 * a < 0.5 * b) : a < b := by
  have hnan : ∀ {c : Float}, (0.5 * c).isNaN = false → c.isNaN = false := by
    intro c hc
    refine (nan_or c).resolve_left fun hn => ?_
    rw [not_nan_iff] at hc
    exact hc (nan_mul (.inr hn))
  obtain ⟨hna, hnb⟩ := not_nan_of_lt h
  obtain hlt | hle := lt_or_le (hnan hna) (hnan hnb)
  · exact hlt
  · exact absurd (half_mono (hb.nonneg (hnan hnb)) hle) (not_le_of_lt h)

/-- What is zero or negative is not above zero. -/
theorem le_zero {s : Sign} {u : UnpackedFloat} (ha : parts a = u)
    (h : u = .zero s ∨ (∃ m e hm, u = .finite .negative m e hm) ∨ u = .infinity .negative) :
    a ≤ 0.0 := by
  have hzero : (0.0 : Float).isNaN = false := (not_nan_of_le worth_zero.nonneg).1
  refine le_of_rank hzero ?_
  rw [rank_zero, rank_eq, ha]
  obtain rfl | ⟨m, e, hm, rfl⟩ | rfl := h <;> simp [unpacked, Prod.Lex.toLex_le_toLex]

theorem nan_sub (ha : parts a = .notANumber) (b : Float) : parts (a - b) = .notANumber := by
  simp [parts_sub, ha, UnpackedFloat.sub]

theorem not_nan_of_finite (h : Scalar.isFinite a = true) : a.isNaN = false := by
  rw [not_nan_iff]
  exact (finite_iff.mp h).1

/-- The difference with a number that is no smaller is zero, or negative and finite. -/
theorem sub_of_le (ha : 0.0 ≤ a) (h : a ≤ b) (hfinite : Scalar.isFinite b = true) :
    (∃ s, parts (a - b) = .zero s) ∨ ∃ m e hm, parts (a - b) = .finite .negative m e hm := by
  obtain ⟨y, hy⟩ := worth_of (Ranking.le_trans ha h) hfinite
  obtain ⟨x, hx⟩ := worth_of ha (isFinite_of_le ha h hfinite)
  have hle := hx.le hy h
  cases hy with
  | @zero t hb =>
    cases hx with
    | @zero s ha =>
      obtain ⟨r, hr⟩ : ∃ r, UnpackedFloat.sub binary64 (.zero s) (.zero t) = .zero r := by
        cases s <;> cases t <;> exact ⟨_, rfl⟩
      exact .inl ⟨r, by rw [parts_sub, ha, hb, hr, packed_zero]⟩
    | @finite m e hm ha =>
      have hpos : (0 : ℝ) < m * 2 ^ e := by positivity
      exact absurd hle hpos.not_ge
  | @finite k d hk hb =>
    obtain ⟨hc', hd⟩ := canonical_unpack hb
    cases hx with
    | zero ha =>
      refine .inr ⟨k, d, hk, ?_⟩
      have hsub : parts (a - b) = packed (.finite .negative k d hk) := by
        simp only [parts_sub, ha, hb, UnpackedFloat.sub]
        rfl
      rw [hsub, packed_finite _ _ hc', if_pos hd]
    | @finite m e hm ha =>
      obtain ⟨hlt, -⟩ | ⟨-, hu⟩ | ⟨hlt, hu⟩ := rounded_sub (e := e) (d := d) hm hk
      · exact absurd hle hlt.not_ge
      · exact .inl ⟨.positive, by rw [parts_sub, ha, hb, hu, packed_zero]⟩
      · have hpos : (0 : ℝ) < m * 2 ^ e := by positivity
        have hsub := hu.packed_of_le (sub_pos.mpr hlt) hc' hd (sub_le_self _ hpos.le)
        rw [parts_sub, ha, hb, hsub]
        generalize UnpackedFloat.sub binary64 _ _ = u at hu
        cases hu with
        | zero => exact .inl ⟨_, rfl⟩
        | @finite j c hj => exact .inr ⟨j, c, hj, rfl⟩

/-- What is above zero is positive or infinite. -/
theorem pos_cases (hp : 0.0 < p) :
    (∃ k d hk, parts p = .finite .positive k d hk) ∨ parts p = .infinity .positive := by
  obtain ⟨h0, hnan⟩ := not_nan_of_lt hp
  have hnonneg := nonneg_iff.mp (Rounding.le_of_lt hp)
  rw [lt_iff h0 hnan, rank_zero, rank_eq] at hp
  generalize parts p = u at hp hnonneg
  cases hnonneg with
  | zero s => exact absurd hp (lt_irrefl _)
  | @finite k d hk hc hd => exact .inl ⟨k, d, hk, rfl⟩
  | infinity => exact .inr rfl

/-- A ratio is not above zero if its numerator is the difference with a number that is no
smaller. -/
theorem sub_div_nonpos (ha : 0.0 ≤ a) (h : a ≤ b) (hfinite : Scalar.isFinite b = true)
    (hp : 0.0 < p) : (a - b) / p ≤ 0.0 := by
  have hzero : ∀ {s : Sign}, UnpackedFloat.div binary64 (parts (a - b)) (parts p) = .zero s →
      (a - b) / p ≤ 0.0 := by
    intro s hz
    refine le_zero (s := s) (parts_div _ _) (.inl ?_)
    rw [hz, packed_zero]
  obtain ⟨k, d, hk, hpos⟩ | hpos := pos_cases hp
  · obtain ⟨s, hnum⟩ | ⟨m, e, hm, hnum⟩ := sub_of_le ha h hfinite
    · exact hzero (s := s / .positive) (by rw [hnum, hpos, UnpackedFloat.div])
    · have hu := rounded_div (s := .negative) (t := .positive) (e := e) (d := d) hm hk
      refine le_zero (s := .negative) (parts_div _ _) ?_
      rw [hnum, hpos]
      obtain hz | ⟨j, c, hj, hf, -⟩ | hi := hu.packed
      · exact .inl hz
      · exact .inr (.inl ⟨j, c, hj, hf⟩)
      · exact .inr (.inr hi)
  · obtain ⟨s, hnum⟩ | ⟨m, e, hm, hnum⟩ := sub_of_le ha h hfinite
    · exact hzero (s := s / .positive) (by rw [hnum, hpos, UnpackedFloat.div])
    · exact hzero (s := .negative / .positive) (by rw [hnum, hpos, UnpackedFloat.div])

/-- What is neither above nor below zero is a zero. -/
theorem zero_of_le (h : a ≤ 0.0) (h' : 0.0 ≤ a) : a = 0.0 ∨ a = -0.0 := by
  obtain ⟨hnan, h0⟩ := not_nan_of_le h
  rw [le_iff hnan h0, rank_zero, rank_eq] at h
  have hnonneg := nonneg_iff.mp h'
  have hzero : ∃ s, parts a = .zero s := by
    generalize parts a = u at h hnonneg
    cases hnonneg with
    | zero s => exact ⟨s, rfl⟩
    | finite => simp [unpacked, Prod.Lex.toLex_le_toLex] at h
    | infinity => simp [unpacked, Prod.Lex.toLex_le_toLex] at h
  obtain ⟨- | -, hs⟩ := hzero
  · exact .inr (congrArg Float.ofModel (eq_of_unpack (y := (-0.0 : Float).toModel) hs))
  · exact .inl (congrArg Float.ofModel (eq_of_unpack (y := (0.0 : Float).toModel) hs))

/-- The place of a double among those that are positive. -/
def rung (a : Float) : ℕ :=
  match parts a with
  | .finite _ m e _ => ((e + 1074) * 2 ^ 52 + m).toNat
  | _ => 0

theorem rung_lt (ha : 0.0 ≤ a) (h : a < b) (hfinite : Scalar.isFinite b = true) :
    rung a < rung b := by
  obtain ⟨hna, hnb⟩ := not_nan_of_lt h
  have hle := Rounding.le_of_lt h
  rw [lt_iff hna hnb, rank_eq, rank_eq] at h
  have hb := nonneg_iff.mp (Ranking.le_trans ha hle)
  have ha := nonneg_iff.mp ha
  rw [finite_iff] at hfinite
  unfold rung
  generalize parts a = u at h ha
  generalize parts b = v at h hb hfinite
  cases hb with
  | infinity => exact absurd rfl (hfinite.2 _)
  | zero t => exact absurd h (not_lt.mpr ha.zero_le)
  | @finite k d hk hc' hd =>
    have hlow' := hc'.least
    cases ha with
    | infinity => simp [unpacked, Prod.Lex.toLex_lt_toLex] at h
    | zero s =>
      simp only
      omega
    | @finite m e hm hc he =>
      have hlow := hc.least
      have hlt := hc.lt
      have hfull := hc'.full
      simp only [unpacked, Prod.Lex.toLex_lt_toLex, lt_irrefl, false_or, true_and] at h
      simp only
      omega

/-- Positive numbers of which none is less than the other are the same. -/
theorem eq_of_not_lt (ha : 0.0 < a) (h : a ≤ b) (hlt : ¬ a < b)
    (hfinite : Scalar.isFinite b = true) : a = b := by
  obtain ⟨hna, hnb⟩ := not_nan_of_le h
  have hrank : unpacked (parts a) = unpacked (parts b) := by
    rw [le_iff hna hnb] at h
    rw [lt_iff hna hnb] at hlt
    exact le_antisymm h (not_lt.mp hlt)
  have hb := nonneg_iff.mp (Ranking.le_trans (Rounding.le_of_lt ha) h)
  obtain ⟨m, e, hm, hpa⟩ | hpa := pos_cases ha
  · rw [hpa] at hrank
    generalize hpb : parts b = v at hrank hb
    cases hb with
    | zero s => simp [unpacked] at hrank
    | infinity => simp [unpacked] at hrank
    | @finite k d hk =>
      simp [unpacked] at hrank
      obtain ⟨rfl, rfl⟩ := hrank
      exact congrArg Float.ofModel (eq_of_unpack (hpa.trans hpb.symm))
  · exact absurd (infinity_of_le hpa h) ((finite_iff.mp hfinite).2 _)

end Inequalities

variable {c : Float} {x y z : ℝ} {m k : ℕ} {e d : ℤ}

/-- What is less than an integer by more than a half is rounded to less than it. -/
theorem nearest_lt_of_le (hm : 2 ^ 52 < m) (hlt : m < 2 ^ 53) (he : -1074 ≤ e) (hx : 0 < x)
    (hle : x ≤ (m - m / 2 ^ 53) * 2 ^ e) : nearest x < m * 2 ^ e := by
  have hpow : (0 : ℝ) < 2 ^ e := by positivity
  obtain ⟨y, hy⟩ : ∃ y : ℝ, y = m - m / 2 ^ 53 := ⟨_, rfl⟩
  have hupper : 2 * y < ((2 * (m - 1 : ℤ) : ℤ) : ℝ) + 1 := by
    have : (2 ^ 52 : ℝ) < m := by exact_mod_cast hm
    push_cast
    linarith
  have hlower : ((2 * (m - 1 : ℤ) : ℤ) : ℝ) < 2 * y := by
    have : (m : ℝ) < 2 ^ 53 := by exact_mod_cast hlt
    push_cast
    linarith
  have hquot : y * 2 ^ e / 2 ^ e = y := mul_div_cancel_right₀ _ hpow.ne'
  have hfloor : ⌊y * 2 ^ e / 2 ^ e⌋ = ((m - 1 : ℕ) : ℤ) := by
    rw [hquot, Int.floor_eq_iff]
    push_cast [show 1 ≤ m by omega] at hupper hlower ⊢
    constructor <;> linarith
  have hgrain : grain (y * 2 ^ e) = e := by
    have hlog : (m - 1).log2 = 52 := (Nat.log2_eq_iff (by omega)).mpr ⟨by omega, by omega⟩
    rw [grain, log_eq_of_floor (by omega) hfloor, hlog]
    omega
  have hdigits : digits (y * 2 ^ e) = m - 1 := by
    rw [digits, hgrain, hquot, standing_between hlower hupper, toEven]
    omega
  calc nearest x ≤ nearest (y * 2 ^ e) := nearest_mono hx (hy ▸ hle)
    _ = (m - 1) * 2 ^ e := by rw [nearest, hdigits, hgrain]; push_cast; rfl
    _ < m * 2 ^ e := by linarith [mul_sub_one (2 ^ e : ℝ) m]

/-- A double with all digits that is not the least of them becomes less by a factor below one. -/
theorem nearest_mul_lt (h : Canonical m e) (hfull : 2 ^ 52 ≤ m) (hne : 2 ^ 52 < m ∨ -1074 < e)
    (hx : 0 < x) (hle : x ≤ (m - m / 2 ^ 53) * 2 ^ e) : nearest x < m * 2 ^ e := by
  obtain hm | rfl := hfull.lt_or_eq
  · exact nearest_lt_of_le hm h.lt h.least hx hle
  · have hpred : Canonical (2 ^ 53 - 1) (e - 1) :=
      ⟨by norm_num, by norm_num, by omega, .inl (by norm_num)⟩
    have hvalue : ((2 ^ 52 : ℕ) - (2 ^ 52 : ℕ) / 2 ^ 53 : ℝ) * 2 ^ e =
        ((2 ^ 53 - 1 : ℕ) : ℝ) * 2 ^ (e - 1) := by
      rw [zpow_sub_one₀ two_ne_zero]
      norm_num
      ring
    calc nearest x ≤ nearest (((2 ^ 53 - 1 : ℕ) : ℝ) * 2 ^ (e - 1)) :=
          nearest_mono hx (hvalue ▸ hle)
      _ = ((2 ^ 53 - 1 : ℕ) : ℝ) * 2 ^ (e - 1) := hpred.nearest
      _ < ((2 ^ 52 : ℕ) : ℝ) * 2 ^ e := by
        rw [← hvalue]
        have : (0 : ℝ) < 2 ^ e := by positivity
        norm_num
        linarith

/-- What is rounded to less is less. -/
theorem Near.lt (hb : Near b z) (hz : 0 < z) (ha : Worth a x) (h : nearest z < x) : b < a := by
  obtain ⟨-, hna⟩ := Ranking.not_nan_of_le ha.nonneg
  obtain ⟨-, hnb⟩ := Ranking.not_nan_of_le hb.nonneg
  refine (lt_or_le hnb hna).resolve_right fun hle => ?_
  cases hb with
  | zero hb => exact absurd rfl hz.ne
  | rounded hx hu hb =>
    cases hu with
    | zero hu =>
      have := ha.le (.zero (by rw [hb, packed_zero])) hle
      linarith
    | @finite m e hm hc hu =>
      rw [packed_finite _ _ hc] at hb
      rw [hu] at h
      by_cases he : e ≤ 971
      · rw [if_pos he] at hb
        have := ha.le (.finite hb) hle
        linarith
      · cases ha with
        | zero ha => exact absurd h (not_lt.mpr (by positivity))
        | @finite k d hk ha =>
          obtain ⟨hc', hd⟩ := canonical_unpack ha
          have := (hc'.le_iff hc).mpr (.inl (by omega))
          linarith

/-- A double below one is below it by half a last place of one at least. -/
theorem Worth.le_of_lt_one (hc : Worth c y) (h : c < 1.0) : y ≤ 1 - 1 / 2 ^ 53 := by
  cases hc with
  | zero hc => norm_num
  | @finite k d hk hc =>
    obtain ⟨hcan, -⟩ := canonical_unpack hc
    have hone : Canonical (2 ^ 52) (-52) := ⟨by norm_num, by norm_num, by norm_num, .inl le_rfl⟩
    have hnot : ¬ ((2 ^ 52 : ℕ) : ℝ) * 2 ^ (-52 : ℤ) ≤ k * 2 ^ d := by
      rw [← le_iff_value parts_one hc]
      exact not_le_of_lt h
    rw [hone.le_iff hcan] at hnot
    have hpred : Canonical (2 ^ 53 - 1) (-53) :=
      ⟨by norm_num, by norm_num, by norm_num, .inl (by norm_num)⟩
    have hlt := hcan.lt
    have hfull := hcan.full
    have hle := (hcan.le_iff hpred).mpr (by omega)
    norm_num at hle ⊢
    exact hle

theorem parts_tiny : ∃ hm, parts Scalar.tiny = .finite .positive (2 ^ 52) (-1074) hm := by
  have h : (match parts Scalar.tiny with
      | .finite .positive m e _ => m == 2 ^ 52 && e == -1074
      | _ => false) = true := by decide +kernel
  split at h
  · rename_i m e hm hp
    rw [Bool.and_eq_true, beq_iff_eq, beq_iff_eq] at h
    obtain ⟨rfl, rfl⟩ := h
    exact ⟨hm, hp⟩
  · cases h

theorem worth_of_pos (ha : 0.0 < a) (hfinite : Scalar.isFinite a = true) :
    ∃ m e hm, parts a = .finite .positive m e hm := by
  obtain h | h := pos_cases ha
  · exact h
  · exact absurd h ((finite_iff.mp hfinite).2 _)

/-- Above the least normal double, a factor below one makes a number less. -/
theorem mul_lt_self (ha : Scalar.tiny < a) (hfinite : Scalar.isFinite a = true) (hc : 0.0 < c)
    (hone : c < 1.0) : a * c < a := by
  obtain ⟨_, htiny⟩ := parts_tiny
  have hpos : 0.0 < a := by
    refine (lt_or_le ?_ (not_nan_of_finite hfinite)).resolve_right fun h => ?_
    · exact (Ranking.not_nan_of_le worth_zero.nonneg).1
    · have hzero := (Worth.finite htiny).le worth_zero (Rounding.le_of_lt (lt_of_lt_of_le ha h))
      exact absurd hzero (not_le.mpr (by positivity))
  obtain ⟨m, e, hm, hpa⟩ := worth_of_pos hpos hfinite
  obtain ⟨k, d, hk, hpc⟩ := worth_of_pos hc
    (isFinite_of_le (Rounding.le_of_lt hc) (Rounding.le_of_lt hone) worth_one.isFinite)
  have hle := (Worth.finite hpc).le_of_lt_one hone
  obtain ⟨hcan, -⟩ := canonical_unpack hpa
  have hleast : Canonical (2 ^ 52) (-1074) :=
    ⟨by norm_num, by norm_num, le_rfl, .inr rfl⟩
  have hgreater : ¬ (e < -1074 ∨ e = -1074 ∧ m ≤ 2 ^ 52) := by
    rw [← hcan.le_iff hleast, ← le_iff_value hpa htiny]
    exact not_le_of_lt ha
  have hlow := hcan.least
  have hfull := hcan.full
  refine ((Worth.finite hpa).mul (Worth.finite hpc)).lt (by positivity) (.finite hpa) ?_
  refine nearest_mul_lt hcan (by omega) (by omega) (by positivity) ?_
  calc (m : ℝ) * 2 ^ e * (k * 2 ^ d) ≤ m * 2 ^ e * (1 - 1 / 2 ^ 53) := by gcongr
    _ = (m - m / 2 ^ 53) * 2 ^ e := by ring

/-- A factor above one makes no positive number less. -/
theorem le_mul_self (hc : 1.0 < c) (ha : 0.0 < a) (hfinite : Scalar.isFinite a = true) :
    a ≤ c * a := by
  obtain ⟨y, hy⟩ := worth_of (Rounding.le_of_lt ha) hfinite
  have hle := Rounding.le_of_lt hc
  obtain ⟨x, hx⟩ | hinf := worth_or_infinity (Ranking.le_trans worth_one.nonneg hle)
  · have hone := worth_one.le hx hle
    exact hy.near.le (hx.mul hy) (le_mul_of_one_le_left hy.value_nonneg hone)
  · refine le_infinity (not_nan_of_finite hfinite) ?_
    obtain ⟨m, e, hm, hpa⟩ := worth_of_pos ha hfinite
    rw [parts_mul, hinf, hpa]
    exact packed_infinity _

theorem nan_sub_right (a : Float) (hb : parts b = .notANumber) : parts (a - b) = .notANumber := by
  rw [parts_sub, hb]
  cases parts a <;> simp [UnpackedFloat.sub]

/-- A difference of finite numbers that are not below zero is finite. -/
theorem finite_sub (ha : 0.0 ≤ a) (hfa : Scalar.isFinite a = true) (hb : 0.0 ≤ b)
    (hfb : Scalar.isFinite b = true) : Scalar.isFinite (a - b) = true := by
  obtain hlt | hle := lt_or_le (not_nan_of_finite hfa) (not_nan_of_finite hfb)
  · obtain ⟨s, hs⟩ | ⟨m, e, hm, hs⟩ := sub_of_le ha (Rounding.le_of_lt hlt) hfb
    all_goals simp [finite_iff, hs]
  · obtain ⟨hlow, hup⟩ := sub_le_left hb hle hfa
    exact isFinite_of_le hlow hup hfa

/-- A finite number over one above zero is a number. -/
theorem not_nan_div (ha : Scalar.isFinite a = true) (hb : 0.0 < b) : (a / b).isNaN = false := by
  obtain ⟨hnan, hinf⟩ := finite_iff.mp ha
  rw [not_nan_iff, parts_div]
  obtain ⟨k, d, hk, hpb⟩ | hpb := pos_cases hb
  · rcases hpa : parts a with s | - | s | ⟨s, m, e, hm⟩
    case infinity => exact absurd hpa (hinf s)
    case notANumber => exact absurd hpa hnan
    case zero => simp [hpb, UnpackedFloat.div]
    case finite =>
      rw [hpb]
      obtain h | ⟨j, c, hj, h, -⟩ | h :=
        (rounded_div (s := s) (t := .positive) (e := e) (d := d) hm hk).packed
      all_goals simp [h]
  · rcases hpa : parts a with s | - | s | ⟨s, m, e, hm⟩
    case infinity => exact absurd hpa (hinf s)
    case notANumber => exact absurd hpa hnan
    all_goals simp [hpb, UnpackedFloat.div]

end Rootfinder.Rounding
