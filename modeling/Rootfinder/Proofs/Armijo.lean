import Rootfinder.LineSearch
import Rootfinder.Proofs.Act
import Rootfinder.Proofs.Doubles
import Rootfinder.Settings.Globalization

namespace Rootfinder

open Rounding

variable {σ : Type} {n : ℕ}

namespace LineSearch

/-- The step length after so many reductions. -/
def Params.length (prm : Params Float) : ℕ → Float
  | 0 => 1.0
  | k + 1 => prm.length k * prm.reduction

/-- The step that is searched along: it is scaled down to the cap on its largest component, if there
is a cap that is finite and exceeded. -/
def cappedTo (cap : Option Float) (delta : Vec Float n) : Vec Float n :=
  match cap with
  | none => delta
  | some c =>
    if Scalar.isFinite c = true ∧ c < magnitude delta.toList then
      delta.map (· * (c / magnitude delta.toList))
    else delta

theorem capped_returns {prm : Params Float} {cap : Option Float} (h : prm.maxDelta = .ok cap)
    (delta : Vec Float n) (t : σ) :
    (capped prm delta : Act Float σ (Vec Float n)).Returns t (cappedTo cap delta) t := by
  cases cap with
  | none =>
    rw [capped, h]
    exact ⟨rfl, rfl⟩
  | some c =>
    have hfinite : Scalar.isFinite c = (!c.isNaN && !Scalar.isInf c) := rfl
    simp only [capped, h, cappedTo]
    split
    · rename_i hinf
      rw [if_neg fun hc => by simp [hfinite, hinf] at hc]
      exact ⟨rfl, rfl⟩
    · rename_i hinf
      split
      · rename_i hlt
        rw [if_pos ⟨by rw [hfinite, (not_nan_of_lt hlt).1, Bool.eq_false_iff.mpr hinf]; rfl, hlt⟩]
        exact ⟨rfl, rfl⟩
      · rename_i hge
        rw [if_neg fun hc => hge hc.2]
        exact ⟨rfl, rfl⟩

structure Params.Shrinking (prm : Params Float) : Prop where
  nonneg : 0.0 ≤ prm.reduction
  le_one : prm.reduction ≤ 1.0
  least : 0.0 < prm.minAlpha

section Lengths

variable {prm : Params Float} (h : prm.Shrinking) {j k : ℕ}

include h

theorem Params.Shrinking.length_worth (k : ℕ) :
    0.0 ≤ prm.length k ∧ Scalar.isFinite (prm.length k) = true := by
  induction k with
  | zero => exact ⟨worth_one.nonneg, worth_one.isFinite⟩
  | succ k ih =>
    obtain ⟨hle, hle'⟩ := mul_le_self ih.1 ih.2 h.nonneg h.le_one
    exact ⟨hle, isFinite_of_le hle hle' ih.2⟩

theorem Params.Shrinking.length_succ_le (k : ℕ) : prm.length (k + 1) ≤ prm.length k :=
  (mul_le_self (h.length_worth k).1 (h.length_worth k).2 h.nonneg h.le_one).2

theorem Params.Shrinking.long_of_le (hjk : j ≤ k) (hk : prm.minAlpha ≤ prm.length k) :
    prm.minAlpha ≤ prm.length j := by
  induction hjk with
  | refl => exact hk
  | step _ ih => exact ih (Ranking.le_trans hk (h.length_succ_le _))

/-- A length that is not below the one before it is the same, and so are all that follow. -/
theorem Params.Shrinking.length_stuck (hlong : prm.minAlpha ≤ prm.length j)
    (hstuck : ¬ prm.length (j + 1) < prm.length j) (hjk : j ≤ k) :
    prm.length k = prm.length j := by
  have hworth := h.length_worth j
  have hsame : prm.length (j + 1) = prm.length j := by
    have hle := h.length_succ_le j
    obtain ⟨hn, hn'⟩ := Ranking.not_nan_of_le hle
    have hge := (lt_or_le hn hn').resolve_left hstuck
    refine eq_of_not_lt ?_ hle hstuck hworth.2
    exact lt_of_lt_of_le h.least (Ranking.le_trans hlong hge)
  induction hjk with
  | refl => rfl
  | step _ ih =>
    rw [Params.length, ih]
    exact hsame

end Lengths

namespace Search

variable (s : Search Float σ n) (f : Vec Float n → Vec Float n) (mark : Vec Float n → σ → σ)

def tried (k : ℕ) : Trial Float n :=
  let x := s.start + Vec.scale (s.params.length k) s.delta
  ⟨x, f x, s.norm.of (f x), s.params.length k⟩

/-- A trial whose norm is finite and as small as the length asks for. -/
def Acceptable (k : ℕ) : Prop :=
  Scalar.isFinite (s.tried f k).norm = true ∧
    (s.tried f k).norm ≤ (1.0 - s.params.armijo * s.params.length k) * s.current

def Improving (k : ℕ) : Prop :=
  Scalar.isFinite (s.tried f k).norm = true ∧ (s.tried f k).norm < s.current

/-- The trial of least norm among the first so many that are improving, and the first of those. -/
structure Leading (j k : ℕ) : Prop where
  lt : k < j
  improving : s.Improving f k
  least : ∀ i < j, s.Improving f i → (s.tried f k).norm ≤ (s.tried f i).norm
  first : ∀ i < k, s.Improving f i → (s.tried f k).norm < (s.tried f i).norm

def evaluated (t : σ) : ℕ → σ
  | 0 => t
  | k + 1 => mark (s.tried f k).point (evaluated t k)

/-- How a search ends, and the state that it leaves behind. There are so many lengths that are not
below the least, unless that holds of all of them. -/
inductive Ends (t : σ) : Except (Fault Float) (Trial Float n) → σ → Prop where
  | productive {k : ℕ} (hlong : s.params.minAlpha ≤ s.params.length k) (h : s.Acceptable f k)
    (hfirst : ∀ i < k, ¬ s.Acceptable f i) :
    Ends t (.ok (s.tried f k)) (s.evaluated f mark t (k + 1))
  | best {j k : ℕ} (hlong : ∀ i, s.params.minAlpha ≤ s.params.length i ↔ i < j)
    (hnone : ∀ i < j, ¬ s.Acceptable f i) (h : s.Leading f j k) :
    Ends t (.ok (s.tried f k)) (s.evaluated f mark t j)
  | barren {j : ℕ} (hlong : ∀ i, s.params.minAlpha ≤ s.params.length i ↔ i < j)
    (hnone : ∀ i < j, ¬ s.Acceptable f i) (hworse : ∀ i < j, ¬ s.Improving f i) :
    Ends t (.error (.noProductiveStep s.params.minAlpha)) (s.evaluated f mark t j)
  | never (h : ∀ i, s.params.minAlpha ≤ s.params.length i ∧ ¬ s.Acceptable f i) (t' : σ) :
    Ends t (.error .endless) t'

/-- What is known of a search that has made so many trials. -/
structure Underway (j : ℕ) (best : Option (Trial Float n)) : Prop where
  long : ∀ i < j, s.params.minAlpha ≤ s.params.length i
  none : ∀ i < j, ¬ s.Acceptable f i
  worse : best = .none → ∀ i < j, ¬ s.Improving f i
  best : ∀ b ∈ best, ∃ k, b = s.tried f k ∧ s.Leading f j k

variable {s f mark} {j : ℕ} {best : Option (Trial Float n)}

theorem underway_start : s.Underway f 0 none :=
  ⟨fun _ h => absurd h (Nat.not_lt_zero _), fun _ h => absurd h (Nat.not_lt_zero _),
    fun _ _ h => absurd h (Nat.not_lt_zero _), fun _ h => by cases h⟩

/-- A further trial that is not improving changes nothing. -/
theorem Leading.succ {k : ℕ} (h : s.Leading f j k)
    (hj : s.Improving f j → (s.tried f k).norm ≤ (s.tried f j).norm) : s.Leading f (j + 1) k where
  lt := Nat.lt_succ_of_lt h.lt
  improving := h.improving
  least i hi himp := by
    obtain hi | rfl := Nat.lt_succ_iff_lt_or_eq.mp hi
    · exact h.least i hi himp
    · exact hj himp
  first := h.first

/-- A trial that is not improving leaves the best as it is. -/
theorem Underway.pass (h : s.Underway f j best) (hlong : s.params.minAlpha ≤ s.params.length j)
    (hnone : ¬ s.Acceptable f j) (hworse : ¬ s.Improving f j) : s.Underway f (j + 1) best where
  long := Nat.forall_lt_succ_right.mpr ⟨h.long, hlong⟩
  none := Nat.forall_lt_succ_right.mpr ⟨h.none, hnone⟩
  worse hb := Nat.forall_lt_succ_right.mpr ⟨h.worse hb, hworse⟩
  best b hb := by
    obtain ⟨k, hbk, hk⟩ := h.best b hb
    exact ⟨k, hbk, hk.succ fun himp => absurd himp hworse⟩

/-- A trial that is better than the best of those before it leads. -/
theorem Underway.leading (h : s.Underway f j best)
    (hfinite : Scalar.isFinite (s.tried f j).norm = true)
    (hlt : (s.tried f j).norm < (best.map Trial.norm).getD s.current) :
    s.Leading f (j + 1) j := by
  have hnan := (not_nan_of_lt hlt).1
  have hself : (s.tried f j).norm ≤ (s.tried f j).norm := (Ranking.le_iff hnan hnan).mpr le_rfl
  cases best with
  | none =>
    have hnone := h.worse rfl
    refine ⟨Nat.lt_succ_self j, ⟨hfinite, hlt⟩, fun i hi himp => ?_, fun i hi himp =>
      absurd himp (hnone i hi)⟩
    obtain hi | rfl := Nat.lt_succ_iff_lt_or_eq.mp hi
    · exact absurd himp (hnone i hi)
    · exact hself
  | some b =>
    obtain ⟨k, rfl, hk⟩ := h.best b rfl
    have hbelow : ∀ i < j, s.Improving f i → (s.tried f j).norm < (s.tried f i).norm :=
      fun i hi himp => lt_of_lt_of_le hlt (hk.least i hi himp)
    refine ⟨Nat.lt_succ_self j, ⟨hfinite, ?_⟩, fun i hi himp => ?_, hbelow⟩
    · exact lt_of_lt_of_le hlt (Rounding.le_of_lt hk.improving.2)
    · obtain hi | rfl := Nat.lt_succ_iff_lt_or_eq.mp hi
      · exact Rounding.le_of_lt (hbelow i hi himp)
      · exact hself

/-- A trial that is finite but not acceptable becomes the best if it is better than that. -/
theorem Underway.better (h : s.Underway f j best)
    (hlong : s.params.minAlpha ≤ s.params.length j) (hnone : ¬ s.Acceptable f j)
    (hfinite : Scalar.isFinite (s.tried f j).norm = true) :
    s.Underway f (j + 1) (s.better best (s.tried f j)) := by
  unfold Search.better
  split
  · rename_i hlt
    exact ⟨Nat.forall_lt_succ_right.mpr ⟨h.long, hlong⟩,
      Nat.forall_lt_succ_right.mpr ⟨h.none, hnone⟩, nofun,
      fun b hb => ⟨j, (Option.some.inj hb).symm, h.leading hfinite hlt⟩⟩
  · rename_i hge
    cases hbest : best with
    | none =>
      refine hbest ▸ h.pass hlong hnone fun himp => hge ?_
      rw [hbest]
      exact himp.2
    | some b =>
      obtain ⟨k, hbk, hk⟩ := h.best b hbest
      refine ⟨Nat.forall_lt_succ_right.mpr ⟨h.long, hlong⟩,
        Nat.forall_lt_succ_right.mpr ⟨h.none, hnone⟩, nofun, fun b' hb' => ?_⟩
      obtain rfl := Option.some.inj hb'
      refine ⟨k, hbk, hk.succ fun himp => ?_⟩
      rw [hbest, hbk] at hge
      exact (lt_or_le (not_nan_of_lt himp.2).1 (not_nan_of_lt hk.improving.2).1).resolve_left hge

/-- A search without a further length has found what leads, or nothing. -/
theorem Underway.wp_conclude (h : s.Underway f j best)
    (hlong : ∀ i, s.params.minAlpha ≤ s.params.length i ↔ i < j) {t : σ} :
    (s.conclude best).wp (fun b t' => s.Ends f mark t (.ok b) t')
      (fun e t' => s.Ends f mark t (.error e) t') (s.evaluated f mark t j) := by
  cases best with
  | none => exact .barren hlong h.none (h.worse rfl)
  | some b =>
    obtain ⟨k, rfl, hk⟩ := h.best b rfl
    rw [conclude, Act.wp_bind, Act.wp_log, Act.wp_pure]
    exact .best hlong h.none hk

/-- The trials from some length on end as the search does. -/
theorem wp_trials_ends (hs : s.params.Shrinking)
    (hr : ∀ x t, (s.residual x).Returns t (f x) (mark x t)) {t : σ} (fuel : ℕ)
    (h : s.Underway f j best) (hfuel : rung (s.params.length j) < fuel) :
    (s.trials fuel (s.params.length j) best).wp (fun b t' => s.Ends f mark t (.ok b) t')
      (fun e t' => s.Ends f mark t (.error e) t') (s.evaluated f mark t j) := by
  induction fuel generalizing j best with
  | zero => exact absurd hfuel (Nat.not_lt_zero _)
  | succ fuel ih =>
    have hshort : ∀ best' : Option (Trial Float n), s.Underway f (j + 1) best' →
        (if s.params.length j * s.params.reduction < s.params.length j then
          s.trials fuel (s.params.length j * s.params.reduction) best'
        else Act.raise .endless).wp (fun b t' => s.Ends f mark t (.ok b) t')
          (fun e t' => s.Ends f mark t (.error e) t') (s.evaluated f mark t (j + 1)) := by
      intro best' h'
      split
      · rename_i hlt
        refine ih h' ?_
        have hrung := rung_lt (hs.length_worth (j + 1)).1 hlt (hs.length_worth j).2
        exact Nat.lt_of_lt_of_le hrung (Nat.lt_succ_iff.mp hfuel)
      · -- The same trial would be made for ever.
        rename_i hstuck
        have hlong := h'.long j (Nat.lt_succ_self j)
        have hnone := h'.none j (Nat.lt_succ_self j)
        refine .never (fun i => ?_) _
        rcases Nat.lt_or_ge i j with hi | hi
        · exact ⟨h'.long i (Nat.lt_succ_of_lt hi), h'.none i (Nat.lt_succ_of_lt hi)⟩
        · have hsame := hs.length_stuck hlong hstuck hi
          unfold Acceptable tried at hnone ⊢
          rw [hsame]
          exact ⟨hlong, hnone⟩
    rw [trials]
    split
    · rename_i hlong
      rw [Act.wp_bind, trial, Act.wp_bind, (hr _ _).wp_iff, Act.wp_pure]
      change Act.wp (if !Scalar.isFinite (s.tried f j).norm then _ else _) _ _
        (s.evaluated f mark t (j + 1))
      split
      · rename_i hinfinite
        rw [Act.wp_bind, Act.wp_log]
        refine hshort best (h.pass hlong ?_ ?_) <;> intro hgood <;> simp [hgood.1] at hinfinite
      · rename_i hfinite
        have hfinite' : Scalar.isFinite (s.tried f j).norm = true := by simpa using hfinite
        split
        · rename_i hproductive
          rw [Act.wp_bind, Act.wp_log, Act.wp_pure]
          exact .productive hlong ⟨hfinite', of_decide_eq_true hproductive⟩ h.none
        · rename_i hunproductive
          exact hshort _ (h.better hlong (fun hgood => hunproductive (decide_eq_true hgood.2))
            hfinite')
    · rename_i hshortest
      refine h.wp_conclude fun i => ⟨fun hi => ?_, h.long i⟩
      by_contra hge
      exact hshortest (hs.long_of_le (Nat.not_lt.mp hge) hi)

end Search

/-- There are fewer lengths than the search has patience for. -/
theorem rung_length_zero (prm : Params Float) : rung (prm.length 0) < patience := by
  change rung 1.0 < patience
  decide +kernel

theorem wp_search_ends {prm : Params Float} (hs : prm.Shrinking) {cap : Option Float}
    (hcap : prm.maxDelta = .ok cap) {residual : Vec Float n → Act Float σ (Vec Float n)}
    {f : Vec Float n → Vec Float n} {mark : Vec Float n → σ → σ}
    (hr : ∀ x t, (residual x).Returns t (f x) (mark x t)) (norm : Norm Float)
    (start delta : Vec Float n) (current : Float) (t : σ) :
    let s : Search Float σ n := ⟨prm, residual, norm, start, cappedTo cap delta, current⟩
    (search prm residual norm start delta current).wp (fun b t' => s.Ends f mark t (.ok b) t')
      (fun e t' => s.Ends f mark t (.error e) t') t := by
  intro s
  have hfuel := rung_length_zero prm
  rw [search, Act.wp_bind, (capped_returns hcap delta t).wp_iff]
  generalize patience = fuel at hfuel
  exact Search.wp_trials_ends (s := s) hs hr fuel Search.underway_start hfuel

/-- Parameters in the ranges that are documented for them. -/
structure Params.Proper (prm : Params Float) : Prop where
  reduction : 0.0 < prm.reduction ∧ prm.reduction < 1.0
  minAlpha : 0.0 < prm.minAlpha ∧ prm.minAlpha ≤ 1.0
  armijo : 0.0 < prm.armijo ∧ prm.armijo < 1.0

theorem Params.Proper.shrinking {prm : Params Float} (h : prm.Proper) : prm.Shrinking :=
  ⟨Rounding.le_of_lt h.reduction.1, Rounding.le_of_lt h.reduction.2, h.minAlpha.1⟩

end LineSearch

open LineSearch

section Checks

variable {v : Value} {e : Refusal} {p : Float → Bool} {rest : Except (Fault Float) Unit}

theorem Value.compared_bind_iff {f : Float → Except (Fault Float) Unit} :
    v.compared >>= f = .ok () ↔ ∃ x, v.number? = some x ∧ f x = .ok () := by
  unfold Value.compared
  cases v.number? <;> simp [bind, Except.bind]

theorem Refusal.unless_bind_iff {holds : Bool} :
    (Refusal.unless e holds >>= fun _ => rest) = .ok () ↔ holds = true ∧ rest = .ok () := by
  cases holds <;> simp [Refusal.unless, bind, Except.bind]

theorem compared_then_iff : (do
    let x ← v.compared
    Refusal.unless e (p x)
    rest) = .ok () ↔ (∃ x, v.number? = some x ∧ p x = true) ∧ rest = .ok () := by
  simp only [Value.compared_bind_iff, Refusal.unless_bind_iff, ← and_assoc, exists_and_right]

end Checks

namespace Backtracking

variable {b : Backtracking}

/-- A value that a check has compared and found in a range. -/
theorem compared_ok {v : Value} {reason : Refusal} {p : Float → Bool}
    {rest : Except (Fault Float) Unit}
    (h : (do let x ← v.compared; Refusal.unless reason (p x); rest) = .ok ()) :
    p (v.number?.getD 0.0) = true ∧ rest = .ok () := by
  obtain ⟨⟨x, hx, hp⟩, hrest⟩ := compared_then_iff.mp h
  rw [hx]
  exact ⟨hp, hrest⟩

/-- Settings that are accepted are in their ranges. -/
theorem proper (h : b.check = .ok ()) : b.params.Proper := by
  obtain ⟨hreduction, h⟩ := compared_ok (p := fun x => decide (0.0 < x) && decide (x < 1.0)) h
  obtain ⟨hleast, h⟩ := compared_ok (p := fun x => decide (0.0 < x) && decide (x ≤ 1.0)) h
  obtain ⟨harmijo, h⟩ := compared_ok (p := fun x => decide (0.0 < x) && decide (x < 1.0)) h
  simp only [Bool.and_eq_true, decide_eq_true_eq] at hreduction hleast harmijo
  exact ⟨hreduction, hleast, harmijo⟩

/-- A cap is usable unless it is a whole number beyond 64 bits. -/
def Usable (b : Backtracking) : Prop := ∀ i : ℤ, b.maxDelta = .int i → i < 2 ^ 64

theorem cap_int (i : ℤ) : cap (.int i) =
    if i < 2 ^ 64 then .ok (some (Float.ofInt i)) else .error .wrongType := rfl

theorem cap_of_usable (h : b.Usable) : b.params.maxDelta = .ok b.maxDelta.number? := by
  change cap b.maxDelta = _
  cases hv : b.maxDelta with
  | int i =>
    rw [cap_int, if_pos (h i hv)]
    rfl
  | _ => rfl

theorem cap_of_not_usable (h : ¬ b.Usable) : b.params.maxDelta = .error .wrongType := by
  simp only [Usable, not_forall] at h
  obtain ⟨i, hi, hlarge⟩ := h
  change cap b.maxDelta = _
  rw [hi, cap_int, if_neg hlarge]

end Backtracking

/-- The Armijo search under accepted settings, along any function that does not raise. With a cap
that is a whole number beyond 64 bits it raises at once. Otherwise it ends with the first acceptable
trial, the first of the least norms below the present one, or for want of any such trial, unless the
lengths stop shrinking above the least and no trial is acceptable; the function was evaluated once
at each trial up to the one that ended the search, in their order, and nothing else was changed. -/
theorem search_ends {b : Backtracking} (hb : b.check = .ok ())
    {residual : Vec Float n → Act Float σ (Vec Float n)} {f : Vec Float n → Vec Float n}
    {mark : Vec Float n → σ → σ} (hr : ∀ x t, (residual x).Returns t (f x) (mark x t))
    (norm : Norm Float) (start delta : Vec Float n) (current : Float) (t : σ) :
    let o := (search b.params residual norm start delta current).run t
    (¬ b.Usable → o.result = .error .wrongType ∧ o.state = t) ∧
      (b.Usable →
        Search.Ends ⟨b.params, residual, norm, start, cappedTo b.maxDelta.number? delta, current⟩
          f mark t o.result o.state) := by
  refine ⟨fun h => ?_, fun h => ?_⟩
  · have hraise : search b.params residual norm start delta current = Act.raise .wrongType := by
      rw [search, capped, Backtracking.cap_of_not_usable h]
      rfl
    rw [hraise]
    exact ⟨rfl, rfl⟩
  · exact (wp_search_ends (Backtracking.proper hb).shrinking (Backtracking.cap_of_usable h) hr norm
      start delta current t).outcome (P := Search.Ends _ f mark t)

/-- Backtracking away from a system without a root, with a record of the points that were tried. -/
theorem search_ends_halved :
    let f : Vec Float 1 → Vec Float 1 := fun x => x.map fun y => y * y + 1.0
    let residual (x : Vec Float 1) : Act Float (List (Vec Float 1)) (Vec Float 1) := do
      Act.update (· ++ [x])
      pure (f x)
    let o := (search Backtracking.initial.params residual .l2 #v[0.5] #v[-1.25] 1.25).run []
    Search.Ends ⟨Backtracking.initial.params, residual, .l2, #v[0.5], #v[-1.25], 1.25⟩ f
        (fun x t => t ++ [x]) [] o.result o.state ∧
      (o.result.toOption.map fun b => b.alpha == 0.5) = some true ∧ o.state.length = 2 := by
  refine ⟨?_, by decide +kernel, by decide +kernel⟩
  have hcheck : Backtracking.initial.check = .ok () := by rfl
  exact (search_ends hcheck (fun _ _ => ⟨rfl, rfl⟩) .l2 #v[0.5] #v[-1.25] 1.25 []).2 nofun

/-- A cap that is accepted, although no search can be made with it: not even the one whose first
trial is acceptable. -/
theorem whole_cap_raises :
    let b : Backtracking := { Backtracking.initial with maxDelta := .int (2 ^ 64) }
    let f : Vec Float 1 → Vec Float 1 := fun x => x.map (· - 1.0)
    let residual (x : Vec Float 1) : Act Float Unit (Vec Float 1) := pure (f x)
    b.check = .ok () ∧
      ((search b.params residual .l2 #v[2.0] #v[-1.0] 1.0).run ()).result = .error .wrongType ∧
      Search.Acceptable ⟨b.params, residual, .l2, #v[2.0], #v[-1.0], 1.0⟩ f 0 := by
  refine ⟨by rfl, by rfl, by unfold Search.Acceptable; decide +kernel⟩

end Rootfinder
