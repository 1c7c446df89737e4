import Rootfinder.Proofs.Descent
import Rootfinder.Proofs.TrustRegionSteps

namespace Rootfinder

open Rounding Iteration

variable {n : Nat}

namespace TrustRegion

/-- The halved square of the residual is infinite, but neither that of the model nor that of the
trial is. -/
structure Swamped (J : Mat Float n n) (fu s r : Vec Float n) : Prop where
  present : Scalar.isInf (loss fu) = true
  model : Scalar.isFinite (loss (fu + J.mulVec s)) = true
  trial : Scalar.isFinite (loss r) = true

section Ratios

variable {J : Mat Float n n} {fu s r : Vec Float n} {rho x y : Float}

theorem isInf_of_parts (h : parts x = .infinity .positive) : Scalar.isInf x = true := by
  change (parts x).isInf = true
  rw [h]
  rfl

/-- A ratio is a number unless the residual is swamped. -/
theorem swamped_of_nan (h : (reductionRatio J fu s r).isNaN = true) : Swamped J fu s r := by
  simp only [reductionRatio] at h
  split at h
  · rename_i hused
    obtain ⟨hpos, hr⟩ := (Bool.and_eq_true _ _).mp hused
    replace hpos := of_decide_eq_true hpos
    have hpredicted : parts (loss fu - loss (fu + J.mulVec s)) ≠ .notANumber :=
      not_nan_iff.mp (not_nan_of_lt hpos).2
    have hr0 : 0.0 ≤ loss r := (notBelow_loss r).nonneg (not_nan_of_finite hr)
    obtain hfu | ⟨a, hfu⟩ | hfu := (notBelow_loss fu).cases
    · exact absurd (nan_sub hfu _) hpredicted
    · have hnumber := not_nan_div (finite_sub hfu.nonneg hfu.isFinite hr0 hr) hpos
      rw [hnumber] at h
      cases h
    · refine ⟨isInf_of_parts hfu, ?_, hr⟩
      obtain hm | ⟨b, hm⟩ | hm := (notBelow_loss (fu + J.mulVec s)).cases
      · exact absurd (nan_sub_right _ hm) hpredicted
      · exact hm.isFinite
      · refine absurd ?_ hpredicted
        rw [parts_sub, hfu, hm]
        rfl
  · exact absurd h (by decide +kernel)

theorem infinity_sub (hx : parts x = .infinity .positive) (hy : Scalar.isFinite y = true) :
    parts (x - y) = .infinity .positive := by
  obtain ⟨hnan, hinf⟩ := finite_iff.mp hy
  rw [parts_sub, hx]
  rcases hp : parts y with s | - | s | ⟨s, m, e, hm⟩
  case infinity => exact absurd hp (hinf s)
  case notANumber => exact absurd hp hnan
  all_goals simp [Float.Model.UnpackedFloat.sub]

/-- The ratio of infinite reductions is not a number. -/
theorem Swamped.nan (h : Swamped J fu s r) : (reductionRatio J fu s r).isNaN = true := by
  obtain ⟨hfu, hm, hr⟩ := h
  have hinf : parts (loss fu) = .infinity .positive := by
    obtain hn | ⟨a, ha⟩ | hi := (notBelow_loss fu).cases
    · change (parts (loss fu)).isInf = true at hfu
      rw [hn] at hfu
      cases hfu
    · have hfinite := ha.isFinite
      rw [Scalar.isFinite, hfu, Bool.not_true, Bool.and_false] at hfinite
      cases hfinite
    · exact hi
  have hpredicted := infinity_sub hinf hm
  have hpos : 0.0 < loss fu - loss (fu + J.mulVec s) := by
    have hone : (0.0 : Float) < 1.0 := by decide +kernel
    exact lt_of_lt_of_le hone (le_infinity (not_nan_of_lt hone).2 hpredicted)
  simp only [reductionRatio]
  rw [if_pos (by rw [decide_eq_true hpos, hr]; rfl), parts_nan, parts_div, infinity_sub hinf hr,
    hpredicted]
  rfl

theorem nan_reductionRatio_iff :
    (reductionRatio J fu s r).isNaN = true ↔ Swamped J fu s r := ⟨swamped_of_nan, Swamped.nan⟩

/-- A ratio that is not a number is on neither side of a bound. -/
theorem Threshold.verdict_nan (hrho : rho.isNaN = true) {t : Threshold Float} {b : Bool}
    (h : t.missedBy rho = .ok b ∨ t.exceededBy rho = .ok b ∨ t.attainedBy rho = .ok b) :
    b = false := by
  have hle : ∀ x, ¬ rho ≤ x ∧ ¬ x ≤ rho := fun x =>
    ⟨fun h => Bool.false_ne_true ((Ranking.not_nan_of_le h).1.symm.trans hrho),
      fun h => Bool.false_ne_true ((Ranking.not_nan_of_le h).2.symm.trans hrho)⟩
  have hlt : ∀ x, ¬ rho < x ∧ ¬ x < rho := fun x =>
    ⟨fun h => (hle x).1 (Rounding.le_of_lt h), fun h => (hle x).2 (Rounding.le_of_lt h)⟩
  cases t with
  | unordered => rcases h with h | h | h <;> cases h
  | value x =>
    rcases h with h | h | h <;> obtain rfl := Except.ok.inj h
    · exact decide_eq_false (hlt x).1
    · exact decide_eq_false (hlt x).2
    · exact decide_eq_false (hle x).2
  | between lo hi =>
    rcases h with h | h | h <;> obtain rfl := Except.ok.inj h
    · exact decide_eq_false (hle lo).1
    · exact decide_eq_false (hle hi).2
    · exact decide_eq_false (hle hi).2

/-- A bound lies below another: every number that is not below the greater is above the less. -/
def Threshold.Below (t t' : Threshold Float) : Prop :=
  ∀ rho : Float, rho.isNaN = false → t'.missedBy rho = .ok false → t.exceededBy rho = .ok true

/-- Of numbers, the one lies below the other if it is less. -/
theorem Threshold.below_value_iff (hy : y.isNaN = false) :
    (Threshold.value x).Below (.value y) ↔ x < y := by
  constructor
  · intro h
    have hself : ¬ y < y := fun hlt => not_le_of_lt hlt (Rounding.le_of_lt hlt)
    have hverdict := h y hy (congrArg Except.ok (decide_eq_false hself))
    exact of_decide_eq_true (Except.ok.inj hverdict)
  · intro h rho hrho hmissed
    have hle := (lt_or_le hrho hy).resolve_left (of_decide_eq_false (Except.ok.inj hmissed))
    exact congrArg Except.ok (decide_eq_true (lt_of_lt_of_le h hle))

end Ratios

variable {scheme : Scheme} {prm : Params Float} {l : Linearization Float}
  {y x : Iteration Float n (Memory Float n)}

/-- What a rejected trial does to a region: it is counted, and the radius, or Fan's `mu`, is
multiplied by the shrink factor. Above the least normal double that makes it less; Fan's radius is
then no greater, as far as the power of the residual is a number. -/
structure Reduces (scheme : Scheme) (prm : Params Float)
    (y x : Iteration Float n (Memory Float n)) : Prop where
  shrinks : x.memory.shrinks = y.memory.shrinks + 1
  radius : scheme ≠ .fan → x.memory.radius = y.memory.radius * prm.shrinkFactor ∧
    (Scalar.tiny < y.memory.radius → Scalar.isFinite y.memory.radius = true →
      x.memory.radius < y.memory.radius)
  mu : scheme = .fan → x.memory.mu = y.memory.mu * prm.shrinkFactor ∧
    x.memory.radius = fanRadius x.memory.mu y.fu ∧
    (Scalar.tiny < y.memory.mu → Scalar.isFinite y.memory.mu = true →
      x.memory.mu < y.memory.mu ∧ ∀ p, Scalar.pow y.fu.euclid 0.99 = p → 0.0 ≤ p →
        Scalar.isFinite p = true → x.memory.radius ≤ y.memory.radius)

/-- The kinds of step that a trust region takes. -/
inductive Move where
  | strays
  | accepts
  | shrinks
  | stands

/-- What a step of each kind does. One that finds no finite step ends the run; one whose trial is
accepted goes there; one whose trial is rejected stays and shrinks the region, or, if the residual
is swamped, changes nothing but that the row of shrinking steps is over. -/
inductive Moves (scheme : Scheme) (prm : Params Float) (l : Linearization Float)
    (y x : Iteration Float n (Memory Float n)) : Move → Prop where
  | strays {J : Mat Float n n} {s : Vec Float n} (hf : Finds l y J s) (hs : s.allFinite = false)
    (hu : x.u = y.u) (hfu : x.fu = y.fu) (hend : x.terminated = true) :
    Moves scheme prm l y x .strays
  | accepts {J : Mat Float n n} {s r : Vec Float n} (ht : Tries l y J s r) (hu : x.u = y.u + s)
    (hfu : x.fu = r) : Moves scheme prm l y x .accepts
  | shrinks {J : Mat Float n n} {s r : Vec Float n} (ht : Tries l y J s r) (hu : x.u = y.u)
    (hfu : x.fu = y.fu) (hr : Reduces scheme prm y x) : Moves scheme prm l y x .shrinks
  | stands {J : Mat Float n n} {s r : Vec Float n} (ht : Tries l y J s r) (hu : x.u = y.u)
    (hfu : x.fu = y.fu) (hscheme : scheme ≠ .bastin) (hs : Swamped J y.fu s r)
    (hm : x.memory.region = { y.memory.region with shrinks := 0 }) :
    Moves scheme prm l y x .stands

/-- A rule whose factor makes numbers less, and that shrinks the region wherever it does not accept
a trial, as far as the ratio tells. -/
structure Presses (scheme : Scheme) (prm : Params Float) : Prop where
  pos : 0.0 < prm.shrinkFactor
  below : prm.shrinkFactor < 1.0
  bounds : scheme = .bastin ∨ prm.stepThreshold.Below prm.shrinkThreshold

theorem larger_mono {a b c : Float} (hc : c.isNaN = false) (h : a ≤ b) :
    Scalar.larger a c ≤ Scalar.larger b c := by
  obtain ⟨ha, hb⟩ := Ranking.not_nan_of_le h
  have hself : c ≤ c := (lt_or_le hc hc).elim Rounding.le_of_lt id
  unfold Scalar.larger
  by_cases hac : a < c
  · rw [if_pos hac]
    split
    · exact hself
    · exact (lt_or_le hb hc).resolve_left ‹_›
  · rw [if_neg hac]
    split
    · exact Ranking.le_trans h (Rounding.le_of_lt ‹_›)
    · exact h

section Rejected

variable {rho size : Float} {m m' : Region Float}

theorem Resizes.rejected (h : Resizes prm rho size scheme true false m m') : m' = m := by
  cases h
  rfl

/-- A ratio that is not a number changes no region. -/
theorem Resizes.stuck (h : Resizes prm rho size scheme false false m m')
    (hrho : rho.isNaN = true) : m' = m := by
  cases h with
  | stays => rfl
  | nlsolve _ _ h => cases Threshold.verdict_nan hrho (.inr (.inr h))
  | nlsolveFair _ _ h =>
    exact absurd ((Ranking.not_nan_of_le h).2.symm.trans hrho) Bool.false_ne_true
  | fan _ _ h => cases Threshold.verdict_nan hrho (.inr (.inl h))

/-- Only a ratio that is not a number neither shrinks the region nor has its trial accepted. -/
theorem Presses.stuck (hp : Presses scheme prm) (h : Judges scheme prm rho false false) :
    scheme ≠ .bastin ∧ rho.isNaN = true := by
  have hne : scheme ≠ .bastin := by
    rintro rfl
    cases h.2
  have hverdict : prm.shrinkThreshold.missedBy rho = .ok false ∧
      prm.stepThreshold.exceededBy rho = .ok false := by
    cases scheme
    case bastin => exact absurd rfl hne
    all_goals exact h
  refine ⟨hne, ?_⟩
  by_contra hnan
  have habove := hp.bounds.resolve_left hne rho (by simpa using hnan) hverdict.1
  rw [hverdict.2] at habove
  cases habove

end Rejected

/-- Fan's radius is no greater for a lesser `mu`, if the power of the residual is a number. -/
theorem fanRadius_mono {fu : Vec Float n} {mu mu' : Float} (h0 : 0.0 ≤ mu') (h : mu' ≤ mu)
    (hmu : Scalar.isFinite mu = true) (hp : 0.0 ≤ Scalar.pow fu.euclid 0.99)
    (hfinite : Scalar.isFinite (Scalar.pow fu.euclid 0.99) = true) :
    fanRadius mu' fu ≤ fanRadius mu fu := by
  obtain ⟨c, hc⟩ := worth_of (Ranking.le_trans h0 h) hmu
  obtain ⟨c', hc'⟩ := worth_of h0 (isFinite_of_le h0 h hmu)
  obtain ⟨q, hq⟩ := worth_of hp hfinite
  have hle : c' * q ≤ c * q := mul_le_mul_of_nonneg_right (hc'.le hc h) hq.value_nonneg
  exact larger_mono (by decide +kernel) ((hc'.mul hq).le (hc.mul hq) hle)

/-- A counted region is less than it was. -/
theorem Presses.reduces (hp : Presses scheme prm) (hc : Coupled scheme y)
    (hm : x.memory.region = placed scheme y.fu (counted scheme prm true y.memory.region)) :
    Reduces scheme prm y x := by
  have hfield := fun {β : Type} (f : Region Float → β) => congrArg f hm
  refine ⟨?_, fun hne => ?_, fun hfan => ?_⟩
  · have hs := hfield Region.shrinks
    rw [placed_shrinks] at hs
    cases scheme <;> exact hs
  · have hr := hfield Region.radius
    rw [placed_of_ne_fan hne] at hr
    have hmul : x.memory.radius = y.memory.radius * prm.shrinkFactor := by
      cases scheme
      case fan => exact absurd rfl hne
      all_goals exact hr
    exact ⟨hmul, fun htiny hfinite => hmul ▸ mul_lt_self htiny hfinite hp.pos hp.below⟩
  · subst hfan
    have hmu : x.memory.mu = y.memory.mu * prm.shrinkFactor := hfield Region.mu
    have hr : x.memory.radius = fanRadius x.memory.mu y.fu := by
      rw [hmu]
      exact hfield Region.radius
    refine ⟨hmu, hr, fun htiny hfinite => ?_⟩
    have hless : x.memory.mu < y.memory.mu := hmu ▸ mul_lt_self htiny hfinite hp.pos hp.below
    refine ⟨hless, ?_⟩
    rintro p rfl h0 hpower
    rw [hr, hc rfl]
    refine fanRadius_mono ?_ (Rounding.le_of_lt hless) hfinite h0 hpower
    rw [hmu]
    have hpos : 0.0 ≤ y.memory.mu := by
      have h0tiny : (0.0 : Float) ≤ Scalar.tiny := by decide +kernel
      exact Ranking.le_trans h0tiny (Rounding.le_of_lt htiny)
    exact (mul_le_self hpos hfinite (Rounding.le_of_lt hp.pos) (Rounding.le_of_lt hp.below)).1

/-- A step whose trial is rejected shrinks the region, or stands still if the residual is
swamped. -/
theorem Turn.moves (h : Turn scheme prm l y x) (hp : Presses scheme prm)
    (hc : Coupled scheme y) : ∃ move, Moves scheme prm l y x move := by
  cases h with
  | strays hf hs hu hfu _ hend =>
    exact ⟨.strays, .strays hf hs hu hfu (by rw [Iteration.terminated, hend.1, Bool.true_or])⟩
  | @tries J s r shrinks accepted m ht hr hu hfu hm hend =>
    cases accepted with
    | true => exact ⟨.accepts, .accepts ht hu hfu⟩
    | false =>
      replace hu : x.u = y.u := hu
      replace hfu : x.fu = y.fu := hfu
      rw [hfu] at hm
      cases shrinks with
      | true =>
        rw [hr.resizes.rejected] at hm
        exact ⟨.shrinks, .shrinks ht hu hfu (hp.reduces hc hm)⟩
      | false =>
        obtain ⟨hne, hnan⟩ := hp.stuck hr.judges
        rw [hr.resizes.stuck hnan] at hm
        refine ⟨.stands, .stands ht hu hfu hne (nan_reductionRatio_iff.mp hnan) (hm.trans ?_)⟩
        cases scheme with
        | fan => exact congrArg (Region.mk · _ _ 0) (hc rfl).symm
        | _ => rfl

section Runs

variable {o : Options Float} {b : Iteration Float n (Memory Float n)} {move : Move} {k N i : ℕ}

/-- The test behind a step does not matter to what it did. -/
theorem Moves.tested (h : Moves scheme prm l y x move) (m : Method Float n (Memory Float n)) :
    Moves scheme prm l y (x.tested m) move := by
  cases h with
  | strays hf hs hu hfu hend =>
    rw [tested_of_terminated hend]
    exact .strays hf hs hu hfu hend
  | accepts ht hu hfu => exact .accepts ht ((tested_u x).trans hu) ((tested_fu x).trans hfu)
  | shrinks ht hu hfu hr =>
    refine .shrinks ht ((tested_u x).trans hu) ((tested_fu x).trans hfu) ⟨?_, ?_, ?_⟩
    all_goals rw [tested_memory]
    · exact hr.shrinks
    · exact hr.radius
    · exact hr.mu
  | stands ht hu hfu hscheme hs hm =>
    exact .stands ht ((tested_u x).trans hu) ((tested_fu x).trans hfu) hscheme hs
      (by rwa [tested_memory])

theorem coupled_of_laps (h : Laps (method scheme prm l o n) k b x) (hb : Coupled scheme b) :
    Coupled scheme x := by
  induction h with
  | none => exact hb
  | more _ hl _ ih => exact ih ((turn_of_lap hl).coupled hb)

/-- Every step of a run is of some kind. -/
theorem moves_of_laps (hp : Presses scheme prm) (hb : Coupled scheme b)
    (h : Laps (method scheme prm l o n) N b x) (hi : i < N) : ∃ move, Moves scheme prm l
      (Iteration.after (method scheme prm l o n) i b)
      (Iteration.after (method scheme prm l o n) (i + 1) b) move := by
  obtain ⟨z, hy, -, hz, he⟩ := h.at hi
  obtain ⟨move, hmove⟩ := (turn_of_lap hz).moves hp (coupled_of_laps hy hb)
  exact ⟨move, he ▸ hmove.tested _⟩

/-- Steps that are rejected one after the other, with no swamped residual between them, come to an
end. -/
theorem row_of_laps (hp : Presses scheme prm) (hk : prm.maxShrinkTimes = some k)
    (hb : Coupled scheme b) (h : Laps (method scheme prm l o n) N b x) (hi : i + (k + 1) ≤ N) :
    (∃ j, i ≤ j ∧ j ≤ i + k ∧ ∃ move, (move = .accepts ∨ move = .stands) ∧
      Moves scheme prm l (Iteration.after (method scheme prm l o n) j b)
        (Iteration.after (method scheme prm l o n) (j + 1) b) move) ∨
      (Iteration.after (method scheme prm l o n) (i + k + 1) b).terminated = true := by
  by_contra hnone
  obtain ⟨hnone, hrun⟩ := not_or.mp hnone
  have hrow : ∀ d ≤ k + 1,
      d ≤ (Iteration.after (method scheme prm l o n) (i + d) b).memory.shrinks := by
    intro d hd
    induction d with
    | zero => exact Nat.zero_le _
    | succ d ih =>
      obtain ⟨move, hmove⟩ := moves_of_laps hp hb h (i := i + d) (by omega)
      cases hmove with
      | accepts ht hu hfu =>
        exact absurd ⟨i + d, by omega, by omega, _, .inl rfl, .accepts ht hu hfu⟩ hnone
      | stands ht hu hfu hscheme hs hm =>
        exact absurd ⟨i + d, by omega, by omega, _, .inr rfl, .stands ht hu hfu hscheme hs hm⟩ hnone
      | shrinks ht hu hfu hr =>
        have := ih (by omega)
        have hs := hr.shrinks
        rw [← Nat.add_assoc]
        omega
      | strays hf hs hu hfu hend =>
        -- A run that a step ended has no further one, and this row is not over.
        obtain hd | hd := Nat.lt_or_ge d k
        · obtain ⟨-, -, ho, -, -⟩ := h.at (i := i + d + 1) (by omega)
          rw [(tested_eq_self ho).1] at hend
          cases hend
        · obtain rfl : d = k := by omega
          exact absurd hend hrun
  obtain ⟨z, -, -, hz, he⟩ := h.at (i := i + k) (by omega)
  have hlong := hrow (k + 1) le_rfl
  rw [← Nat.add_assoc, he, tested_memory] at hlong
  have hstopped := (turn_of_lap hz).ends_row hk hlong
  have hended : z.terminated = true := by rw [Iteration.terminated, hstopped, Bool.true_or]
  rw [he, tested_of_terminated hended] at hrun
  exact hrun hended

end Runs

end TrustRegion

/-- What a step of a trust region did, told by the sessions before and after it. -/
def Session.Moves : Session Float n → Session Float n → TrustRegion.Move → Prop
  | ⟨.trustRegion scheme prm l, _, y⟩, ⟨.trustRegion _ _ _, _, x⟩, move =>
    TrustRegion.Moves scheme prm l y x move
  | _, _, _ => False

/-- The factor of an accepted rule lies between zero and one. -/
theorem RadiusRule.presses {rule : RadiusRule} {scheme : TrustRegion.Scheme}
    (h : rule.check = .ok ())
    (hbelow : scheme = .bastin ∨ rule.params.stepThreshold.Below rule.params.shrinkThreshold) :
    TrustRegion.Presses scheme rule.params := by
  obtain ⟨hshrink, -⟩ :=
    Backtracking.compared_ok (p := fun x => decide (0.0 < x) && decide (x < 1.0)) h
  simp only [Bool.and_eq_true, decide_eq_true_eq] at hshrink
  exact ⟨hshrink.1, hshrink.2, hbelow⟩

/-- Trust regions move on. Under an accepted rule whose bound on acceptance lies below that on
shrinking, or under Bastin's, every completed step of a run ends it for want of a finite step, or
accepts its trial, or counts it as rejected and makes the region less; or the residual is swamped,
and the step changes nothing. Of so many steps in a row as may shrink the region and one more, one
accepts its trial or finds the residual swamped, or the run is over behind them. -/
theorem trust_regions_move_on [LinearRoutines Float] {call : Call} {problem : Problem Float n}
    {scheme : TrustRegion.Scheme} {rule : RadiusRule} {configuration : Configuration}
    (hrule : rule.check = .ok ()) {k : ℕ} (hk : rule.maxShrinkTimes.truncated = .ok (k : ℤ))
    (hbelow : scheme = .bastin ∨ rule.params.stepThreshold.Below rule.params.shrinkThreshold)
    {b e : Session Float n}
    (hb : (Candidate.trustRegion scheme rule configuration).Begins call problem b)
    {rs : List Session.Request}
    (h : Act.Served Session.serve
      (fun s r => (r = .step ∨ r = .solve) ∧ Act.Granted Session.serve s r) b rs e) :
    (∀ i : ℕ, i < e.iteration.stats.nsteps →
      ∃ move, Session.Moves (b.after i) (b.after (i + 1)) move) ∧
    ∀ i : ℕ, i + (k + 1) ≤ e.iteration.stats.nsteps →
      (∃ j, i ≤ j ∧ j ≤ i + k ∧ ∃ move, (move = .accepts ∨ move = .stands) ∧
        Session.Moves (b.after j) (b.after (j + 1)) move) ∨
      (b.after (i + k + 1)).iteration.terminated = true := by
  have hp := rule.presses hrule hbelow
  have hlimit : rule.params.maxShrinkTimes = some k := by
    rw [RadiusRule.params, hk]
    rfl
  obtain ⟨hown, P, fu, hbegun⟩ := hb.begun
  have hcourse : b.OnCourse e := h.keeps ⟨b.iteration, .refl _, rfl⟩ fun s r hs hr =>
    hs.serve hr.1 hr.2
  obtain ⟨a, o, y⟩ := b
  obtain rfl := hown.algorithm
  obtain ⟨it, ⟨N, x, hl, ht⟩, rfl⟩ := hcourse
  replace hbegun : y = begun (TrustRegion.method scheme rule.params
    configuration.linearization o n) P fu := hbegun
  have hc : TrustRegion.Coupled scheme y := by
    rw [hbegun]
    exact TrustRegion.coupled_begun P fu
  have hsteps : it.stats.nsteps = N := by
    have hstats := congrArg (fun it => it.stats.nsteps) ht
    have hN := hl.steps (Session.method_advance_at ⟨_, o, y⟩)
    have hzero : y.stats.nsteps = 0 := by rw [hbegun]; rfl
    simp only [tested_stats] at hstats
    rw [hstats, hN]
    change y.stats.nsteps + (N : ℤ) = N
    rw [hzero, zero_add]
  simp only [Session.after_eq, hsteps]
  refine ⟨fun i hi => ?_, fun i hi => ?_⟩
  · exact TrustRegion.moves_of_laps hp hc hl (by exact_mod_cast hi)
  · refine (TrustRegion.row_of_laps hp hlimit hc hl (by exact_mod_cast hi)).imp_right
      fun hended => ?_
    rw [Session.after_eq]
    exact hended

/-- The customary rule of a scheme that gives up after two shrinking steps in a row. -/
def hasty (scheme : TrustRegion.Scheme) : RadiusRule :=
  { RadiusRule.ofScheme scheme with maxShrinkTimes := .int 1 }

/-- Where there is no root, two trials are rejected, and the run is over. -/
theorem trust_regions_move_on_rootless : ∃ b e : Session Float 1,
    (Candidate.trustRegion .nlsolve (hasty .nlsolve) Settings.initial).Begins .plain rootless b ∧
    Act.Served Session.serve (fun s r => (r = .step ∨ r = .solve) ∧ Act.Granted Session.serve s r) b
      [.solve] e ∧
    e.iteration.stats.nsteps = 2 ∧ (∃ move, (b.after 1).Moves (b.after 2) move) ∧
    ((∃ j ≤ 1, ∃ move, (move = .accepts ∨ move = .stands) ∧
        (b.after j).Moves (b.after (j + 1)) move) ∨ (b.after 2).iteration.terminated = true) := by
  have hrun : (((Candidate.trustRegion .nlsolve (hasty .nlsolve) Settings.initial).init .plain
      rootless).run ()).result.toOption.map (fun b =>
      (((Session.serve .solve).run b).result.isOk,
        ((Session.serve .solve).run b).state.iteration.stats.nsteps)) = some (true, 2) := by
    decide +kernel
  have hbelow : (hasty .nlsolve).params.stepThreshold.Below
      (hasty .nlsolve).params.shrinkThreshold :=
    (TrustRegion.Threshold.below_value_iff (by decide +kernel)).mpr (by decide +kernel)
  cases hb : ((Candidate.trustRegion .nlsolve (hasty .nlsolve) Settings.initial).init .plain
      rootless).run () |>.result with
  | error e => rw [hb] at hrun; cases hrun
  | ok b =>
    rw [hb] at hrun
    simp only [Except.toOption, Option.map_some, Option.some.injEq, Prod.mk.injEq] at hrun
    obtain ⟨hok, hsteps⟩ := hrun
    have hserved : Act.Served Session.serve
        (fun s r => (r = .step ∨ r = .solve) ∧ Act.Granted Session.serve s r) b [.solve] _ :=
      .more ⟨.inr rfl, hok⟩ (.none _)
    obtain ⟨hmoves, hrow⟩ := trust_regions_move_on (by rfl) (k := 1) (by rfl) (.inr hbelow)
      (.init hb) hserved
    rw [hsteps] at hmoves hrow
    refine ⟨b, _, .init hb, hserved, hsteps, hmoves 1 (by norm_num), ?_⟩
    rcases hrow 0 (by norm_num) with ⟨j, -, hj, hmove⟩ | hended
    · exact .inl ⟨j, by omega, hmove⟩
    · exact .inr hended

/-- A straight line so steep that the square of its values is too large for a double. -/
def precipice : Problem Float 1 :=
  ⟨.outOfPlace (fun u _ => .ok (u.map fun x => 1e200 * x))
    (some fun _ _ => .ok (.replicate 1 (.replicate 1 1e200))), .replicate 1 1.0, .absent⟩

/-- A swamped residual keeps a trust region from a root that it finds at once: the trial is not
accepted, the region does not shrink, and no step is counted, although a run may only have one
such step in a row. -/
theorem swamped_run_stands_still : ∃ b : Session Float 1,
    (Candidate.trustRegion .nlsolve (hasty .nlsolve) Settings.initial).Begins .plain precipice b ∧
    (hasty .nlsolve).check = .ok () ∧ (hasty .nlsolve).maxShrinkTimes.truncated = .ok 1 ∧
    (hasty .nlsolve).params.stepThreshold.Below (hasty .nlsolve).params.shrinkThreshold ∧
    (b.after 2).iteration.stats.nsteps = 2 ∧ (b.after 2).iteration.terminated = false ∧
    (b.after 2).iteration.u = b.iteration.u ∧ (b.after 2).shrinks? = some 0 := by
  have hrun : (((Candidate.trustRegion .nlsolve (hasty .nlsolve) Settings.initial).init .plain
      precipice).run ()).result.toOption.map (fun b =>
      ((b.after 2).iteration.stats.nsteps, (b.after 2).iteration.terminated,
        decide ((b.after 2).iteration.u = b.iteration.u), (b.after 2).shrinks?)) =
      some (2, false, true, some 0) := by decide +kernel
  have hbelow : (hasty .nlsolve).params.stepThreshold.Below
      (hasty .nlsolve).params.shrinkThreshold :=
    (TrustRegion.Threshold.below_value_iff (by decide +kernel)).mpr (by decide +kernel)
  cases hb : ((Candidate.trustRegion .nlsolve (hasty .nlsolve) Settings.initial).init .plain
      precipice).run () |>.result with
  | error e => rw [hb] at hrun; cases hrun
  | ok b =>
    rw [hb] at hrun
    simp only [Except.toOption, Option.map_some, Option.some.injEq, Prod.mk.injEq,
      decide_eq_true_eq] at hrun
    exact ⟨b, .init hb, by rfl, by rfl, hbelow, hrun⟩

end Rootfinder
