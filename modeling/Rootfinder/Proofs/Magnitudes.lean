import Rootfinder.Proofs.Doubles
import Rootfinder.Vec

namespace Rootfinder.Rounding

open Float.Model Float.Model.UnpackedFloat Format

section Finiteness

variable {a b : Float}

/-- Only finite numbers have a finite sum. -/
theorem isFinite_of_add (h : Scalar.isFinite (a + b) = true) :
    Scalar.isFinite a = true ∧ Scalar.isFinite b = true := by
  rw [finite_iff, parts_add] at h
  rw [finite_iff, finite_iff]
  generalize parts a = u at h ⊢
  generalize parts b = v at h ⊢
  rcases u with s | - | s | ⟨s, m, e, hm⟩ <;> rcases v with t | - | t | ⟨t, k, d, hk⟩ <;>
    simp [UnpackedFloat.add] at h ⊢
  case infinity.infinity => cases s <;> cases t <;> simp at h

/-- Only finite numbers have a finite product. -/
theorem isFinite_of_mul (h : Scalar.isFinite (a * b) = true) :
    Scalar.isFinite a = true ∧ Scalar.isFinite b = true := by
  rw [finite_iff, parts_mul] at h
  rw [finite_iff, finite_iff]
  generalize parts a = u at h ⊢
  generalize parts b = v at h ⊢
  rcases u with s | - | s | ⟨s, m, e, hm⟩ <;> rcases v with t | - | t | ⟨t, k, d, hk⟩ <;>
    simp [UnpackedFloat.mul] at h ⊢

theorem isFinite_of_neg (h : Scalar.isFinite (-a) = true) : Scalar.isFinite a = true := by
  have hparts : parts (-a) = packed (parts a).neg := rfl
  rw [finite_iff, hparts] at h
  rw [finite_iff]
  generalize parts a = u at h ⊢
  rcases u with s | - | s | ⟨s, m, e, hm⟩ <;> simp [UnpackedFloat.neg] at h ⊢

/-- Nothing is finite that was divided by a zero. -/
theorem isFinite_div_zero {s : Sign} (h : parts b = .zero s) :
    Scalar.isFinite (a / b) = false := by
  rw [← Bool.not_eq_true, finite_iff, parts_div, h]
  generalize parts a = u
  rcases u with s | - | s | ⟨s, m, e, hm⟩ <;> simp [UnpackedFloat.div]

theorem isFinite_of_foldl {xs : List Float} {c : Float}
    (h : Scalar.isFinite (xs.foldl (· + ·) c) = true) :
    Scalar.isFinite c = true ∧ ∀ x ∈ xs, Scalar.isFinite x = true := by
  induction xs generalizing c with
  | nil => exact ⟨h, fun x hx => absurd hx List.not_mem_nil⟩
  | cons x xs ih =>
    obtain ⟨hsum, hxs⟩ := ih h
    obtain ⟨hc, hx⟩ := isFinite_of_add hsum
    exact ⟨hc, List.forall_mem_cons.mpr ⟨hx, hxs⟩⟩

variable {n : ℕ}

/-- Only finite vectors have a finite inner product. -/
theorem isFinite_of_dot {u v : Vec Float n} (h : Scalar.isFinite (Vec.dot u v) = true) {i : ℕ}
    (hi : i < n) : Scalar.isFinite u[i] = true ∧ Scalar.isFinite v[i] = true := by
  rw [Vec.dot, Vec.total, ← Vector.foldl_toList] at h
  refine isFinite_of_mul ((isFinite_of_foldl h).2 _ ?_)
  rw [Vector.mem_toList_iff, Vector.mem_iff_getElem]
  exact ⟨i, hi, Vector.getElem_zipWith hi⟩

end Finiteness

section Signs

variable {a b : Float} {n : ℕ}

theorem nonneg_add (ha : 0.0 ≤ a) (hb : 0.0 ≤ b) : 0.0 ≤ a + b := by
  have hinf : ∀ {x y : Float}, 0.0 ≤ x → parts y = .infinity .positive →
      parts (x + y) = .infinity .positive ∧ parts (y + x) = .infinity .positive := by
    intro x y hx hy
    rw [nonneg_iff] at hx
    rw [parts_add, parts_add, hy]
    generalize parts x = u at hx
    cases hx <;> simp [UnpackedFloat.add]
  obtain ⟨x, hx⟩ | ha' := worth_or_infinity ha
  · obtain ⟨y, hy⟩ | hb' := worth_or_infinity hb
    · exact (hx.add hy).nonneg
    · exact nonneg_iff.mpr ((hinf ha hb').1 ▸ .infinity)
  · exact nonneg_iff.mpr ((hinf hb ha').2 ▸ .infinity)

theorem nonneg_mul (ha : 0.0 < a) (hfinite : Scalar.isFinite a = true) (hb : 0.0 ≤ b) :
    0.0 ≤ a * b := by
  obtain ⟨m, e, hm, hpa⟩ := worth_of_pos ha hfinite
  obtain ⟨y, hy⟩ | hpb := worth_or_infinity hb
  · exact ((Worth.finite hpa).mul hy).nonneg
  · rw [nonneg_iff, parts_mul, hpa, hpb, UnpackedFloat.mul, packed_infinity]
    exact .infinity

/-- A square is that of the magnitude. -/
theorem abs_mul_abs (a : Float) : a.abs * a.abs = a * a := by
  have hparts : parts (a.abs * a.abs) = parts (a * a) := by
    rw [parts_mul, parts_mul, parts_abs]
    rcases hp : parts a with s | - | s | ⟨s, m, e, hm⟩
    case finite =>
      obtain ⟨hc, he⟩ := canonical_unpack hp
      rw [UnpackedFloat.abs, packed_finite _ _ hc, if_pos he]
      cases s <;> rfl
    case notANumber => rfl
    case infinity => cases s <;> rfl
    case zero => cases s <;> rfl
  exact congrArg Float.ofModel (eq_of_unpack hparts)

theorem worth_abs (ha : Scalar.isFinite a = true) : ∃ x, Worth a.abs x := by
  obtain ⟨hnan, hinf⟩ := finite_iff.mp ha
  rcases hp : parts a with s | - | s | ⟨s, m, e, hm⟩
  case notANumber => exact absurd hp hnan
  case infinity => exact absurd hp (hinf s)
  case zero => exact ⟨0, .zero (by rw [parts_abs, hp, UnpackedFloat.abs, packed_zero])⟩
  case finite =>
    obtain ⟨hc, he⟩ := canonical_unpack hp
    have hparts : parts a.abs = .finite .positive m e hm := by
      rw [parts_abs, hp, UnpackedFloat.abs, packed_finite _ _ hc, if_pos he]
    exact ⟨_, .finite hparts⟩

theorem nonneg_square (ha : Scalar.isFinite a = true) : 0.0 ≤ a * a := by
  obtain ⟨x, hx⟩ := worth_abs ha
  rw [← abs_mul_abs]
  exact (hx.mul hx).nonneg

/-- A finite vector has an inner product with itself, which may be infinite. -/
theorem nonneg_dot {v : Vec Float n} (hv : v.allFinite = true) : 0.0 ≤ Vec.dot v v := by
  have hsquares : ∀ (xs : List Float) (c : Float), (∀ x ∈ xs, Scalar.isFinite x = true) →
      0.0 ≤ c → 0.0 ≤ (xs.map fun x => x * x).foldl (· + ·) c := by
    intro xs
    induction xs with
    | nil => exact fun c _ hc => hc
    | cons x xs ih =>
      intro c hxs hc
      obtain ⟨hx, hxs⟩ := List.forall_mem_cons.mp hxs
      exact ih _ hxs (nonneg_add hc (nonneg_square hx))
  rw [Vec.allFinite, ← Vector.all_toList, List.all_eq_true] at hv
  rw [Vec.dot, Vec.total, ← Vector.foldl_toList, Vector.toList_zipWith, List.zipWith_self]
  exact hsquares _ _ hv worth_zero.nonneg

/-- A product of numbers that are not below zero is none only if it is that of zero and infinity. -/
theorem nan_of_mul (ha : 0.0 ≤ a) (hb : 0.0 ≤ b) (h : (a * b).isNaN = true) :
    (∃ s, parts a = .zero s) ∧ parts b = .infinity .positive ∨
      parts a = .infinity .positive ∧ ∃ s, parts b = .zero s := by
  rw [parts_nan] at h
  obtain ⟨x, hx⟩ | hpa := worth_or_infinity ha
  · obtain ⟨y, hy⟩ | hpb := worth_or_infinity hb
    · exact absurd h (not_nan_iff.mp (Ranking.not_nan_of_le (hx.mul hy).nonneg).2)
    · cases hx with
      | zero hpa => exact .inl ⟨⟨_, hpa⟩, hpb⟩
      | finite hpa => simp [parts_mul, hpa, hpb, UnpackedFloat.mul] at h
  · obtain ⟨y, hy⟩ | hpb := worth_or_infinity hb
    · cases hy with
      | zero hpb => exact .inr ⟨hpa, _, hpb⟩
      | finite hpb => simp [parts_mul, hpa, hpb, UnpackedFloat.mul] at h
    · simp [parts_mul, hpa, hpb, UnpackedFloat.mul] at h

/-- What equals zero is a zero. -/
theorem beq_zero_iff : (a == 0.0) = true ↔ ∃ s, parts a = .zero s := by
  change ((parts a).compare (.zero .positive) == some .eq) = true ↔ _
  rcases parts a with (- | -) | - | s | ⟨- | -, m, e, hm⟩ <;> simp [UnpackedFloat.compare]

theorem isInf_iff : Scalar.isInf a = true ↔ ∃ s, parts a = .infinity s := by
  change (parts a).isInf = true ↔ _
  cases parts a <;> simp [UnpackedFloat.isInf]

theorem nonneg_sqrt (ha : 0.0 ≤ a) : 0.0 ≤ Float.sqrt a := by
  obtain ⟨x, hx⟩ | ha := worth_or_infinity ha
  · exact hx.sqrt.nonneg
  · exact nonneg_iff.mpr (sqrt_infinity ha ▸ .infinity)

theorem abs_of_zero {s : Sign} (h : parts a = .zero s) : a.abs = 0.0 := by
  have hparts : parts a.abs = .zero .positive := by
    rw [parts_abs, h, UnpackedFloat.abs, packed_zero]
  exact congrArg Float.ofModel (eq_of_unpack (y := (0.0 : Float).toModel) hparts)

end Signs

section Greatest

variable {n : ℕ}

/-- A running greatest of numbers is one of them, or where it began, and none is greater. -/
theorem foldl_larger {xs : List Float} (hxs : ∀ x ∈ xs, x.isNaN = false) {m : Float}
    (hm : m.isNaN = false) :
    ∃ r, xs.foldl (fun m x => if Scalar.isNaN m then m else if Scalar.isNaN x then x
        else Scalar.larger m x) m = r ∧ (r = m ∨ r ∈ xs) ∧ m ≤ r ∧ ∀ x ∈ xs, x ≤ r := by
  induction xs generalizing m with
  | nil =>
    have hself : m ≤ m := le_of_rank hm le_rfl
    exact ⟨m, rfl, .inl rfl, hself, fun x hx => absurd hx List.not_mem_nil⟩
  | cons x xs ih =>
    obtain ⟨hx, hxs⟩ := List.forall_mem_cons.mp hxs
    obtain ⟨m', hlarger, hm', hle, hxle⟩ : ∃ m', Scalar.larger m x = m' ∧ (m' = m ∨ m' = x) ∧
        m ≤ m' ∧ x ≤ m' := by
      obtain hlt | hge := lt_or_le hm hx
      · exact ⟨x, if_pos hlt, .inr rfl, Rounding.le_of_lt hlt, le_of_rank hx le_rfl⟩
      · refine ⟨m, if_neg fun hlt => not_le_of_lt hlt hge, .inl rfl, le_of_rank hm le_rfl, hge⟩
    have hnan : m'.isNaN = false := (Ranking.not_nan_of_le hle).2
    obtain ⟨r, hr, hmem, hmr, hall⟩ := ih hxs hnan
    have hstep : (if Scalar.isNaN m then m else if Scalar.isNaN x then x
        else Scalar.larger m x) = m' := by
      rw [show Scalar.isNaN m = false from hm, show Scalar.isNaN x = false from hx,
        if_neg Bool.false_ne_true, if_neg Bool.false_ne_true, hlarger]
    refine ⟨r, by rw [List.foldl_cons, hstep, hr], ?_, Ranking.le_trans hle hmr,
      List.forall_mem_cons.mpr ⟨Ranking.le_trans hxle hmr, hall⟩⟩
    obtain heq | hmem := hmem
    · obtain h | h := hm'
      · exact .inl (heq.trans h)
      · exact .inr (heq.trans h ▸ .head xs)
    · exact .inr (.tail x hmem)

/-- The greatest of some numbers that are not below zero is one of them. -/
theorem greatest_spec (hn : 0 < n) {v : Vec Float n} (hv : ∀ x ∈ v, 0.0 ≤ x) :
    v.greatest ∈ v ∧ ∀ x ∈ v, x ≤ v.greatest := by
  have hnan : ∀ x ∈ v.toList, x.isNaN = false := fun x hx =>
    (Ranking.not_nan_of_le (hv x (Vector.mem_toList_iff.mp hx))).2
  obtain ⟨r, hr, hmem, -, hall⟩ := foldl_larger hnan (m := -Scalar.infinity) (by decide)
  have hgreatest : v.greatest = r := by rw [Vec.greatest, ← Vector.foldl_toList, hr]
  have hall : ∀ x ∈ v, x ≤ r := fun x hx => hall x (Vector.mem_toList_iff.mpr hx)
  rw [hgreatest]
  refine ⟨?_, hall⟩
  obtain rfl | hmem := hmem
  · have hfirst := v.getElem_mem hn
    exact absurd (Ranking.le_trans (hv _ hfirst) (hall _ hfirst)) (by decide)
  · exact Vector.mem_toList_iff.mp hmem

end Greatest

theorem epsilon_pos : (0.0 : Float) < Scalar.epsilon := by decide

theorem epsilon_le_one : (Scalar.epsilon : Float) ≤ 1.0 := by decide

theorem epsilon_finite : Scalar.isFinite (Scalar.epsilon : Float) = true := rfl

/-- What is no less than the square of the gap does not vanish when it is multiplied by the gap. -/
theorem epsilon_mul_pos {a : Float} (ha : Scalar.isFinite a = true)
    (hle : Scalar.epsilon * Scalar.epsilon ≤ a) : 0.0 < Scalar.epsilon * a := by
  have hcube : (0.0 : Float) < Scalar.epsilon * (Scalar.epsilon * Scalar.epsilon) := by decide
  have hsquare : (0.0 : Float) ≤ Scalar.epsilon * Scalar.epsilon := by decide
  obtain ⟨y, hy⟩ := worth_of (Rounding.le_of_lt epsilon_pos) epsilon_finite
  obtain ⟨z, hz⟩ : ∃ z, Worth (Scalar.epsilon * Scalar.epsilon) z :=
    worth_of hsquare (by decide)
  obtain ⟨w, hw⟩ := worth_of (Ranking.le_trans hsquare hle) ha
  exact lt_of_lt_of_le hcube ((hy.mul hz).le (hy.mul hw)
    (mul_le_mul_of_nonneg_left (hz.le hw hle) hy.value_nonneg))

end Rootfinder.Rounding
