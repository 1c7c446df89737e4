import Rootfinder.Proofs.Armijo

namespace Rootfinder

open Rounding

variable {σ : Type} {n : ℕ}

namespace Rounding

section Even

variable {z : ℝ} {k m : ℤ}

theorem toEven_standing_lt (h : z < k - 1 / 2) : toEven (standing z) < k := by
  have hfloor : ⌊2 * z⌋ < 2 * k - 1 := by
    rw [Int.floor_lt]
    push_cast
    linarith
  have hceil : ⌈2 * z⌉ ≤ 2 * k - 1 := by
    rw [Int.ceil_le]
    push_cast
    linarith
  unfold toEven standing
  omega

theorem le_toEven_standing_of_lt (h : k - 1 / 2 < z) : k ≤ toEven (standing z) := by
  have hfloor : 2 * k - 1 ≤ ⌊2 * z⌋ := by
    rw [Int.le_floor]
    push_cast
    linarith
  have hceil : 2 * k - 1 < ⌈2 * z⌉ := by
    rw [Int.lt_ceil]
    push_cast
    linarith
  unfold toEven standing
  omega

/-- An integer that a factor below one makes less, after rounding, is below none that stays. -/
theorem toEven_standing_mul_lt {y : ℝ} (hy : y < 1) (hmk : m ≤ k)
    (h : toEven (standing (m * y)) < m) : toEven (standing (k * y)) < k := by
  obtain rfl | hlt := hmk.eq_or_lt
  · exact h
  · -- A product that is lost on the smaller is half a unit below it, so that of the greater is less.
    have hhalf : m * y ≤ m - 1 / 2 := not_lt.mp fun hm => h.not_ge (le_toEven_standing_of_lt hm)
    have hmk : (m : ℝ) < k := by exact_mod_cast hlt
    exact toEven_standing_lt (by nlinarith)

/-- A factor of at most one half makes every positive integer less. -/
theorem toEven_standing_half_lt {y : ℝ} (hk : 0 < k) (hy : y ≤ 1 / 2) :
    toEven (standing (k * y)) < k := by
  have hone : toEven (standing ((1 : ℤ) * y)) < 1 := by
    have hmono := toEven_mono (standing_mono hy)
    have hhalf : toEven (standing (1 / 2)) = 0 := by
      rw [standing, mul_one_div_cancel two_ne_zero, Int.floor_one, Int.ceil_one]
      rfl
    rw [Int.cast_one, one_mul]
    omega
  exact toEven_standing_mul_lt (by linarith) (show 1 ≤ k by omega) hone

end Even

section Small

variable {a b c : Float} {x y z : ℝ} {k m : ℕ}

/-- Below the normal doubles the last place does not depend on the size. -/
theorem nearest_small (hz : 0 < z) (h : z < 2 ^ 53) :
    nearest (z * 2 ^ (-1074 : ℤ)) = toEven (standing z) * 2 ^ (-1074 : ℤ) := by
  have hpos : (0 : ℝ) < 2 ^ (-1074 : ℤ) := by positivity
  have hsmall : z * 2 ^ (-1074 : ℤ) < 2 ^ (-1021 : ℤ) := by
    calc z * 2 ^ (-1074 : ℤ) < 2 ^ (53 : ℤ) * 2 ^ (-1074 : ℤ) := by gcongr; exact_mod_cast h
      _ = 2 ^ (-1021 : ℤ) := by rw [← zpow_add₀ two_ne_zero]; rfl
  have hlog : Int.log 2 (z * 2 ^ (-1074 : ℤ)) < -1021 :=
    (Int.lt_zpow_iff_log_lt one_lt_two (by positivity)).mp (by exact_mod_cast hsmall)
  have hgrain : grain (z * 2 ^ (-1074 : ℤ)) = -1074 := by
    unfold grain
    omega
  rw [nearest, digits, hgrain, mul_div_cancel_right₀ _ hpos.ne']

/-- What is not rounded to less is not less. -/
theorem Near.ge (hb : Near b z) (hz : 0 < z) (ha : Worth a x) (h : x ≤ nearest z) : a ≤ b := by
  cases ha with
  | zero ha => exact (Worth.zero ha).near.le hb hz.le
  | @finite m e hm ha =>
    have hpos : (0 : ℝ) < m * 2 ^ e := by positivity
    cases hb with
    | zero hb => exact absurd rfl hz.ne
    | rounded _ hu hb =>
      cases hu with
      | zero hu => linarith
      | @finite k d hk hc hu =>
        rw [packed_finite _ _ hc] at hb
        split at hb
        · exact (le_iff_value ha hb).mpr (hu ▸ h)
        · exact le_infinity (not_nan_of_finite (Worth.finite ha).isFinite) hb

theorem Near.lt_iff (hb : Near b z) (hz : 0 < z) (ha : Worth a x) : b < a ↔ nearest z < x :=
  ⟨fun h => not_le.mp fun hle => not_le_of_lt h (hb.ge hz ha hle), hb.lt hz ha⟩

/-- A number that is no greater than the least normal double, in units of the least double. -/
theorem worth_small (ha : 0.0 < a) (h : a ≤ Scalar.tiny) :
    ∃ k : ℕ, 0 < k ∧ k ≤ 2 ^ 52 ∧ Worth a (k * 2 ^ (-1074 : ℤ)) := by
  obtain ⟨_, htiny⟩ := parts_tiny
  obtain ⟨k, d, hk, hpa⟩ := worth_of_pos ha
    (isFinite_of_le (Rounding.le_of_lt ha) h (Worth.finite htiny).isFinite)
  obtain ⟨hcan, -⟩ := canonical_unpack hpa
  have hleast : Canonical (2 ^ 52) (-1074) := ⟨by norm_num, by norm_num, le_rfl, .inr rfl⟩
  have hle := (hcan.le_iff hleast).mp ((le_iff_value hpa htiny).mp h)
  have hlow := hcan.least
  obtain rfl : d = -1074 := by omega
  exact ⟨k, hk, by omega, .finite hpa⟩

theorem mul_lt_iff_small (ha : Worth a (k * 2 ^ (-1074 : ℤ))) (hk : 0 < k) (hle : k ≤ 2 ^ 52)
    (hc : Worth c y) (hy : 0 < y) (hone : y < 1) :
    a * c < a ↔ toEven (standing ((k : ℤ) * y)) < k := by
  have hpos : (0 : ℝ) < 2 ^ (-1074 : ℤ) := by positivity
  have hvalue : (k : ℝ) * 2 ^ (-1074 : ℤ) * y = k * y * 2 ^ (-1074 : ℤ) := by ring
  have hlt : k * y < (2 ^ 53 : ℝ) := by
    have hk' : (k : ℝ) ≤ 2 ^ 52 := by exact_mod_cast hle
    nlinarith
  rw [(ha.mul hc).lt_iff (by positivity) ha, hvalue, nearest_small (by positivity) hlt,
    mul_lt_mul_iff_left₀ hpos, Int.cast_natCast]
  exact_mod_cast Iff.rfl

/-- A factor below one has a value between zero and one. -/
theorem worth_factor (hc : 0.0 < c) (hone : c < 1.0) : ∃ y, Worth c y ∧ 0 < y ∧ y < 1 := by
  obtain ⟨k, d, hk, hpc⟩ := worth_of_pos hc
    (isFinite_of_le (Rounding.le_of_lt hc) (Rounding.le_of_lt hone) worth_one.isFinite)
  have hle := (Worth.finite hpc).le_of_lt_one hone
  exact ⟨_, .finite hpc, by positivity, by linarith⟩

/-- If a factor below one makes a number less, it makes every greater one less. -/
theorem mul_lt_self_of_le (ha : 0.0 < a) (hab : a ≤ b) (hfinite : Scalar.isFinite b = true)
    (hc : 0.0 < c) (hone : c < 1.0) (h : a * c < a) : b * c < b := by
  obtain ⟨_, htiny⟩ := parts_tiny
  obtain hgreat | hsmall := lt_or_le (not_nan_of_finite (Worth.finite htiny).isFinite)
    (not_nan_of_finite hfinite)
  · exact mul_lt_self hgreat hfinite hc hone
  · obtain ⟨m, hm, hm', ha'⟩ := worth_small ha (Ranking.le_trans hab hsmall)
    obtain ⟨k, hk, hk', hb'⟩ := worth_small (lt_of_lt_of_le ha hab) hsmall
    obtain ⟨y, hy, hpos, hlt⟩ := worth_factor hc hone
    rw [mul_lt_iff_small ha' hm hm' hy hpos hlt] at h
    rw [mul_lt_iff_small hb' hk hk' hy hpos hlt]
    refine toEven_standing_mul_lt hlt ?_ h
    have hle := ha'.le hb' hab
    exact_mod_cast le_of_mul_le_mul_right hle (by positivity)

/-- A factor of at most one half makes every positive number less. -/
theorem mul_lt_self_of_le_half (ha : 0.0 < a) (hfinite : Scalar.isFinite a = true) (hc : 0.0 < c)
    (h : c ≤ 0.5) : a * c < a := by
  have hone : c < 1.0 := by
    refine (lt_or_le (Ranking.not_nan_of_le h).1 ?_).resolve_right fun hle => ?_
    · exact not_nan_of_finite worth_one.isFinite
    · exact absurd (Ranking.le_trans hle h) (by decide +kernel)
  obtain ⟨_, htiny⟩ := parts_tiny
  obtain hgreat | hsmall := lt_or_le (not_nan_of_finite (Worth.finite htiny).isFinite)
    (not_nan_of_finite hfinite)
  · exact mul_lt_self hgreat hfinite hc hone
  · obtain ⟨k, hk, hk', ha'⟩ := worth_small ha hsmall
    obtain ⟨y, hy, hpos, hlt⟩ := worth_factor hc hone
    rw [mul_lt_iff_small ha' hk hk' hy hpos hlt]
    exact toEven_standing_half_lt (by omega) (hy.le worth_half h)

end Small

end Rounding

namespace LineSearch

namespace Params

variable {prm : Params Float} {j k : ℕ}

/-- Whether another reduction makes the least length less. -/
def Dwindling (prm : Params Float) : Prop := prm.minAlpha * prm.reduction < prm.minAlpha

theorem Proper.dwindling (h : prm.Proper) (hleast : Scalar.tiny < prm.minAlpha ∨
    prm.reduction ≤ 0.5) : prm.Dwindling := by
  have hfinite := isFinite_of_le (Rounding.le_of_lt h.minAlpha.1) h.minAlpha.2 worth_one.isFinite
  obtain hleast | hhalf := hleast
  · exact mul_lt_self hleast hfinite h.reduction.1 h.reduction.2
  · exact mul_lt_self_of_le_half h.minAlpha.1 hfinite h.reduction.1 hhalf

/-- A length that is not below the least is made less, if the least is. -/
theorem Proper.length_lt (h : prm.Proper) (hd : prm.Dwindling)
    (hlong : prm.minAlpha ≤ prm.length k) : prm.length (k + 1) < prm.length k :=
  mul_lt_self_of_le h.minAlpha.1 hlong (h.shrinking.length_worth k).2 h.reduction.1 h.reduction.2 hd

/-- If a reduction leaves the least length as it is, no length comes below it. -/
theorem Proper.long_of_not_dwindling (h : prm.Proper) (hd : ¬ prm.Dwindling) (k : ℕ) :
    prm.minAlpha ≤ prm.length k := by
  have hfinite := isFinite_of_le (Rounding.le_of_lt h.minAlpha.1) h.minAlpha.2 worth_one.isFinite
  have hstays : prm.minAlpha ≤ prm.minAlpha * prm.reduction := by
    obtain ⟨hle, hle'⟩ := mul_le_self (Rounding.le_of_lt h.minAlpha.1) hfinite
      (Rounding.le_of_lt h.reduction.1) (Rounding.le_of_lt h.reduction.2)
    exact (lt_or_le (Ranking.not_nan_of_le hle').1 (Ranking.not_nan_of_le hle').2).resolve_left hd
  induction k with
  | zero => exact h.minAlpha.2
  | succ k ih =>
    obtain ⟨x, hx⟩ := worth_of (Rounding.le_of_lt h.minAlpha.1) hfinite
    obtain ⟨z, hz⟩ := worth_of (h.shrinking.length_worth k).1 (h.shrinking.length_worth k).2
    obtain ⟨y, hy, hpos, -⟩ := worth_factor h.reduction.1 h.reduction.2
    have hmono := (hx.mul hy).le (hz.mul hy) (mul_le_mul_of_nonneg_right (hx.le hz ih) hpos.le)
    exact Ranking.le_trans hstays hmono

theorem Proper.rung_le (h : prm.Proper) (hlong : prm.minAlpha ≤ prm.length k) :
    rung prm.minAlpha ≤ rung (prm.length k) := by
  have hworth := h.shrinking.length_worth k
  by_cases hlt : prm.minAlpha < prm.length k
  · exact (rung_lt (Rounding.le_of_lt h.minAlpha.1) hlt hworth.2).le
  · rw [eq_of_not_lt h.minAlpha.1 hlong hlt hworth.2]

/-- There is at most one length for each double between the least and one. -/
theorem Proper.count_le (h : prm.Proper) (hd : prm.Dwindling)
    (hlong : ∀ i < k, prm.minAlpha ≤ prm.length i) : k + rung prm.minAlpha ≤ rung 1.0 + 1 := by
  have hfalls : ∀ i < k, rung (prm.length i) + i ≤ rung 1.0 := by
    intro i
    induction i with
    | zero => exact fun _ => by rw [Nat.add_zero, length]
    | succ i ih =>
      intro hi
      have hlt := rung_lt (h.shrinking.length_worth (i + 1)).1
        (h.length_lt hd (hlong i (by omega))) (h.shrinking.length_worth i).2
      have hle := ih (by omega)
      omega
  cases k with
  | zero =>
    have hle : rung prm.minAlpha ≤ rung 1.0 := h.rung_le (k := 0) h.minAlpha.2
    omega
  | succ k =>
    have hle := h.rung_le (hlong k (Nat.lt_succ_self k))
    have hfall := hfalls k (Nat.lt_succ_self k)
    omega

end Params

namespace Search

variable (s : Search Float σ n)

/-- The state after the first so many trials. -/
def passed (t : σ) : ℕ → σ
  | 0 => t
  | k + 1 => ((s.trial (s.params.length k)).run (passed t k)).state

/-- The states behind a search from some state that was over after finitely many trials. -/
def Halted (t t' : σ) : Prop :=
  ∃ k, (∀ i < k, s.params.minAlpha ≤ s.params.length i) ∧ t' = s.passed t k

theorem trial_returns (hr : ∀ x t, ((s.residual x).run t).result.isOk = true) (alpha : Float)
    (t : σ) : ∃ r, (s.trial alpha).Returns t r ((s.trial alpha).run t).state := by
  have hok := hr (s.start + Vec.scale alpha s.delta) t
  cases h : ((s.trial alpha).run t).result with
  | ok r => exact ⟨r, h, rfl⟩
  | error e =>
    rw [trial, Act.run_bind_pure] at h
    cases hx : ((s.residual (s.start + Vec.scale alpha s.delta)).run t).result <;>
      simp [hx, Except.isOk, Except.toBool, Except.map] at h hok

variable {s} {j : ℕ}

/-- Trials that return come to an end, if the lengths dwindle. -/
theorem wp_trials_halts (hs : s.params.Proper) (hd : s.params.Dwindling)
    (hr : ∀ x t, ((s.residual x).run t).result.isOk = true) {t : σ} (fuel : ℕ)
    (best : Option (Trial Float n)) (hlong : ∀ i < j, s.params.minAlpha ≤ s.params.length i)
    (hfuel : rung (s.params.length j) < fuel) :
    (s.trials fuel (s.params.length j) best).wp (fun _ => s.Halted t)
      (fun e t' => e = .noProductiveStep s.params.minAlpha ∧ s.Halted t t') (s.passed t j) := by
  induction fuel generalizing j best with
  | zero => exact absurd hfuel (Nat.not_lt_zero _)
  | succ fuel ih =>
    rw [trials]
    split
    · rename_i hj
      have hlong' : ∀ i < j + 1, s.params.minAlpha ≤ s.params.length i :=
        Nat.forall_lt_succ_right.mpr ⟨hlong, hj⟩
      have hlt := hs.length_lt hd hj
      have hrung := rung_lt (hs.shrinking.length_worth (j + 1)).1 hlt
        (hs.shrinking.length_worth j).2
      have hshort : ∀ best' : Option (Trial Float n),
          (if s.params.length j * s.params.reduction < s.params.length j then
            s.trials fuel (s.params.length j * s.params.reduction) best'
          else Act.raise .endless).wp (fun _ => s.Halted t)
            (fun e t' => e = .noProductiveStep s.params.minAlpha ∧ s.Halted t t')
            (s.passed t (j + 1)) := by
        intro best'
        rw [if_pos (show s.params.length j * s.params.reduction < s.params.length j from hlt)]
        exact ih best' hlong' (Nat.lt_of_lt_of_le hrung (Nat.lt_succ_iff.mp hfuel))
      obtain ⟨r, hreturns⟩ := s.trial_returns hr (s.params.length j) (s.passed t j)
      rw [Act.wp_bind, hreturns.wp_iff]
      split
      · rw [Act.wp_bind, Act.wp_log]
        exact hshort best
      · split
        · rw [Act.wp_bind, Act.wp_log, Act.wp_pure]
          exact ⟨j + 1, hlong', rfl⟩
        · exact hshort _
    · cases best with
      | none => exact ⟨rfl, j, hlong, rfl⟩
      | some b =>
        rw [conclude, Act.wp_bind, Act.wp_log, Act.wp_pure]
        exact ⟨j, hlong, rfl⟩

end Search

section Searches

variable {prm : Params Float} (h : prm.Proper) {cap : Option Float} (hcap : prm.maxDelta = .ok cap)
  {residual : Vec Float n → Act Float σ (Vec Float n)} {norm : Norm Float}
  {start delta : Vec Float n} {current : Float}

include h hcap

theorem search_halts (hd : prm.Dwindling)
    (hr : ∀ x t, ((residual x).run t).result.isOk = true) (t : σ) :
    let o := (search prm residual norm start delta current).run t
    Search.Halted ⟨prm, residual, norm, start, cappedTo cap delta, current⟩ t o.state ∧
      ∀ e, o.result = .error e → e = .noProductiveStep prm.minAlpha := by
  intro o
  have hfuel := rung_length_zero prm
  have hsearch : (search prm residual norm start delta current).wp
      (fun _ => Search.Halted ⟨prm, residual, norm, start, cappedTo cap delta, current⟩ t)
      (fun e t' => e = .noProductiveStep prm.minAlpha ∧
        Search.Halted ⟨prm, residual, norm, start, cappedTo cap delta, current⟩ t t') t := by
    rw [search, Act.wp_bind, (capped_returns hcap delta t).wp_iff]
    generalize patience = fuel at hfuel
    exact Search.wp_trials_halts (s := ⟨prm, residual, norm, start, cappedTo cap delta, current⟩)
      h hd hr fuel none (fun i hi => absurd hi (Nat.not_lt_zero i)) hfuel
  cases hresult : o.result with
  | ok r => exact ⟨hsearch.of_ok hresult, fun e he => by cases he⟩
  | error e =>
    obtain ⟨he, hhalted⟩ := hsearch.of_error hresult
    exact ⟨hhalted, fun e' he' => Except.error.inj he' ▸ he⟩

/-- A search whose lengths all stay above the least goes on for ever, unless some trial is
acceptable. -/
theorem search_stalls (hd : ¬ prm.Dwindling) {f : Vec Float n → Vec Float n}
    {mark : Vec Float n → σ → σ} (hr : ∀ x t, (residual x).Returns t (f x) (mark x t))
    (hnone : ∀ k, ¬ Search.Acceptable ⟨prm, residual, norm, start, cappedTo cap delta, current⟩ f k)
    (t : σ) : ((search prm residual norm start delta current).run t).result = .error .endless := by
  have hlong := h.long_of_not_dwindling hd
  have hends := (wp_search_ends h.shrinking hcap hr norm start delta current t).outcome
    (P := Search.Ends _ f mark t)
  generalize ((search prm residual norm start delta current).run t).result = r at hends
  generalize ((search prm residual norm start delta current).run t).state = t' at hends
  cases hends with
  | productive _ hgood => exact absurd hgood (hnone _)
  | @best j _ hall => exact absurd ((hall j).mp (hlong j)) (lt_irrefl j)
  | @barren j hall => exact absurd ((hall j).mp (hlong j)) (lt_irrefl j)
  | never => rfl

end Searches

end LineSearch

open LineSearch

/-- The trials of a search under accepted settings. If a reduction makes the least length less, as
it does above the least normal double and with a factor of at most one half, then they come to an
end along every function that returns, whatever it returns and however it changes the state: there
is at most one for each double between the least length and one, and the search returns a trial or
raises for want of one (or at once, if its cap cannot be used). If a reduction leaves the least
length as it is, no length ever comes below it, and a search without an acceptable trial never
ends. -/
theorem backtracking_halts {b : Backtracking} (hb : b.check = .ok ())
    {residual : Vec Float n → Act Float σ (Vec Float n)} (norm : Norm Float)
    (start delta : Vec Float n) (current : Float) (t : σ) :
    let s : Search Float σ n :=
      ⟨b.params, residual, norm, start, cappedTo b.maxDelta.number? delta, current⟩
    let o := (search b.params residual norm start delta current).run t
    (Scalar.tiny < b.params.minAlpha ∨ b.params.reduction ≤ 0.5 → b.params.Dwindling) ∧
      (b.params.Dwindling → (∀ x t, ((residual x).run t).result.isOk = true) →
        ∃ k, k + rung b.params.minAlpha ≤ rung 1.0 + 1 ∧ o.state = s.passed t k ∧
          ∀ e, o.result = .error e →
            e = .noProductiveStep b.params.minAlpha ∨ ¬ b.Usable ∧ k = 0 ∧ e = .wrongType) ∧
      (¬ b.params.Dwindling → (∀ k, b.params.minAlpha ≤ b.params.length k) ∧
        (b.Usable → ∀ (f : Vec Float n → Vec Float n) (mark : Vec Float n → σ → σ),
          (∀ x t, (residual x).Returns t (f x) (mark x t)) → (∀ k, ¬ s.Acceptable f k) →
            o.result = .error .endless)) := by
  intro s o
  have hproper := Backtracking.proper hb
  refine ⟨hproper.dwindling, fun hd hr => ?_, fun hd => ⟨hproper.long_of_not_dwindling hd,
    fun husable f mark hr hnone => ?_⟩⟩
  · by_cases husable : b.Usable
    · obtain ⟨⟨k, hlong, hstate⟩, hfault⟩ :=
        search_halts hproper (Backtracking.cap_of_usable husable) hd hr t
      exact ⟨k, hproper.count_le hd hlong, hstate, fun e he => .inl (hfault e he)⟩
    · have hraise : o = ⟨.error .wrongType, t, []⟩ := by
        change (search b.params residual norm start delta current).run t = _
        rw [search, capped, Backtracking.cap_of_not_usable husable]
        rfl
      refine ⟨0, hproper.count_le hd (fun i hi => absurd hi (Nat.not_lt_zero i)), ?_,
        fun e he => ?_⟩
      · rw [hraise]
        rfl
      · rw [hraise] at he
        exact .inr ⟨husable, rfl, (Except.error.inj he).symm⟩
  · exact search_stalls hproper (Backtracking.cap_of_usable husable) hd hr hnone t

/-- Settings whose factor holds the least length, and all others, at twice the least double or
above. -/
def stuck : Backtracking :=
  { Backtracking.initial with alphaReduction := .num 0.75, minAlpha := .num 5e-324 }

theorem check_stuck : stuck.check = .ok () := by
  have hok : stuck.check.isOk = true := by decide +kernel
  cases h : stuck.check with
  | ok u => rfl
  | error e => rw [h] at hok; cases hok

theorem not_dwindling_stuck : ¬ stuck.params.Dwindling := by
  unfold Params.Dwindling
  decide +kernel

/-- A function that never has a value, and counts how often it is asked for one. -/
def blind (_ : Vec Float 1) : Act Float ℕ (Vec Float 1) := do
  Act.update (· + 1)
  pure #v[0.0 / 0.0]

theorem backtracking_halts_blind :
    let o := (search Backtracking.initial.params blind .l2 #v[0.0] #v[1.0] 1.0).run 0
    (∃ k, k + rung 1e-4 ≤ rung 1.0 + 1 ∧ o.state =
        Search.passed ⟨Backtracking.initial.params, blind, .l2, #v[0.0], #v[1.0], 1.0⟩ 0 k) ∧
      o.state = 14 ∧ o.result.isOk = false ∧
      ∀ k, stuck.params.minAlpha ≤ stuck.params.length k := by
  have hcheck : Backtracking.initial.check = .ok () := by rfl
  obtain ⟨hdwindles, hends, -⟩ :=
    @backtracking_halts _ _ _ hcheck blind .l2 #v[0.0] #v[1.0] 1.0 0
  have hleast : Scalar.tiny < Backtracking.initial.params.minAlpha := by decide +kernel
  obtain ⟨k, hcount, hstate, -⟩ := hends (hdwindles (.inl hleast)) fun _ _ => rfl
  refine ⟨⟨k, hcount, hstate⟩, by decide +kernel, by decide +kernel, ?_⟩
  exact ((@backtracking_halts _ _ _ check_stuck blind .l2 #v[0.0] #v[1.0] 1.0 0).2.2
    not_dwindling_stuck).1

/-- Accepted settings under which a search along a function that returns never ends. -/
theorem backtracking_may_stall : stuck.check = .ok () ∧
    (∀ x t, ((blind x).run t).result.isOk = true) ∧
    ((search stuck.params blind .l2 #v[0.0] #v[1.0] 1.0).run 0).result = .error .endless ∧
    ∀ k, stuck.params.minAlpha ≤ stuck.params.length k := by
  have hproper := Backtracking.proper check_stuck
  have hvalues : ∀ x t, (blind x).Returns t #v[0.0 / 0.0] (t + 1) := fun _ _ => ⟨rfl, rfl⟩
  refine ⟨check_stuck, fun _ _ => rfl, ?_, hproper.long_of_not_dwindling not_dwindling_stuck⟩
  refine search_stalls hproper rfl not_dwindling_stuck hvalues (fun k hgood => ?_) 0
  have hnan : Scalar.isFinite (Norm.l2.of (#v[0.0 / 0.0] : Vec Float 1)) = false := by
    decide +kernel
  exact Bool.false_ne_true (hnan.symm.trans hgood.1)

end Rootfinder
