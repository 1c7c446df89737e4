import Mathlib.Algebra.BigOperators.Group.Finset.Basic
import Rootfinder.Proofs.LockstepUpTo
import Rootfinder.Proofs.RaisingSolves
import Rootfinder.Proofs.RememberedJacobian
import Rootfinder.Proofs.SecantSteps

namespace Rootfinder

open Iteration

variable {α σ : Type} {n : ℕ}

def Stats.countTrials (s : Stats) (k : ℕ) : Stats := { s with nf := s.nf + k }

variable [Scalar α]

section Trials

def Vec.triedWith (points : Vec α n → List (Vec α n)) :
    Except (Fault α) (Vec α n) → List (Vec α n)
  | .ok s => if s.allFinite then points s else []
  | .error _ => []

namespace LineSearch

/-- Notes the points at which a function is asked for. -/
def noting (f : Vec α n → Except (Fault α) (Vec α n)) (x : Vec α n) :
    Act α (List (Vec α n)) (Vec α n) := do
  Act.update (· ++ [x])
  Act.ofExcept (f x)

def tried (prm : Params α) (f : Vec α n → Except (Fault α) (Vec α n)) (norm : Norm α)
    (start delta : Vec α n) (current : α) : List (Vec α n) :=
  ((search prm (noting f) norm start delta current).run []).state

end LineSearch

namespace Newton

variable (search : Option (LineSearch.Params α)) (l : Linearization α) (o : Options α)
  (y : Iteration α n Unit)

def triedAlong (delta : Vec α n) : List (Vec α n) :=
  match search with
  | none => [y.u + delta]
  | some prm => LineSearch.tried prm y.problem.residual o.norm y.u delta (o.norm.of y.fu)

def tried : List (Vec α n) :=
  Vec.triedWith (triedAlong search o y)
    ((Jacobian.build l.concrete y.problem l.differencing y.u y.fu >>= fun J =>
      l.solver.solve J (-y.fu) y.u.toList y.problem.parameter).run y.stats).result

end Newton

namespace TrustRegion

def tried (l : Linearization α) (y : Iteration α n (Memory α n)) : List (Vec α n) :=
  Vec.triedWith (fun s => [y.u + s]) ((jacobian l >>= search l).run y).result

end TrustRegion

namespace Secant

variable {ε : Type}

def triedAlong (y : Iteration α n (Memory ε)) (delta : Vec α n) : List (Vec α n) :=
  Vec.triedWith (fun s => [y.u + s]) (.ok delta)

end Secant

/-- No point is tried where the resets are used up by an estimate that cannot be divided by. -/
def Klement.tried (limit : ℕ) (y : Iteration α n (Secant.Memory (Vec α n))) : List (Vec α n) :=
  if degenerate y.memory.estimate then
    if limit < y.memory.resets + 1 then [] else Secant.triedAlong y (delta (Vec.ones n) y.fu)
  else Secant.triedAlong y (delta y.memory.estimate y.fu)

def Broyden.tried (y : Iteration α n (Secant.Memory (Mat α n n))) : List (Vec α n) :=
  Secant.triedAlong y (delta y.memory.estimate y.fu)

/-- The points that the next step of a session tries. -/
def Session.tried : Session α n → List (Vec α n)
  | ⟨.newton search l, o, it⟩ => Newton.tried search l o it
  | ⟨.trustRegion _ _ l, _, it⟩ => TrustRegion.tried l it
  | ⟨.klement limit, _, it⟩ => Klement.tried limit it
  | ⟨.broyden _, _, it⟩ => Broyden.tried it
  | ⟨.replay _, _, _⟩ => []

end Trials

section Searches

variable {P : Problem α n} {y : Iteration α n σ}

def Iteration.trying (y : Iteration α n σ) (ps : List (Vec α n)) : Iteration α n σ :=
  { y with stats := y.stats.countTrials ps.length }

theorem Iteration.lockstep_evaluate (y : Iteration α n σ) (x : Vec α n) :
    Act.Lockstep (fun z ps => z = y.trying ps) Eq (evaluate x)
      (LineSearch.noting y.problem.residual x) := by
  refine Act.Lockstep.seq (Act.lockstep_update fun z ps hz => ?_) fun _ z ps hz => ?_
  · subst hz
    simp [trying, Stats.countTrials, Stats.countResidual, Int.add_assoc]
  · subst hz
    exact Act.lockstep_ofExcept (Act.matching_refl _) _ _ rfl

/-- A search evaluates the residual where it tries a point, however it ends. -/
theorem Iteration.search_state (prm : LineSearch.Params α) (norm : Norm α) (start delta : Vec α n)
    (current : α) : ((LineSearch.search prm evaluate norm start delta current).run y).state =
      y.trying (LineSearch.tried prm y.problem.residual norm start delta current) := by
  have hnone : y = y.trying [] := by simp [trying, Stats.countTrials]
  have hsearch : Act.Lockstep (fun z ps => z = y.trying ps) Eq
      (LineSearch.search prm evaluate norm start delta current)
      (LineSearch.search prm (LineSearch.noting y.problem.residual) norm start delta current) :=
    (LineSearch.upTo_search fun x => (lockstep_evaluate y x).upTo).lockstep
  exact (hsearch y [] hnone).state

end Searches

structure Work where
  trials : ℕ
  jacobians : ℕ
  factors : ℕ
  solves : ℕ

def Stats.charged (s : Stats) (price : ℕ) (w : Work) : Stats :=
  { s with
    nf := s.nf + (price * w.jacobians + w.trials : ℕ), njacs := s.njacs + w.jacobians,
    nfactors := s.nfactors + w.factors, nsolve := s.nsolve + w.solves }

def Stats.accrued (s : Stats) (price : ℕ) (w : ℕ → Work) : ℕ → Stats
  | 0 => s
  | k + 1 => ((accrued s price w k).charged price (w k)).countStep

/-- What steps count adds up. -/
theorem Stats.accrued_eq (s : Stats) (price : ℕ) (w : ℕ → Work) (k : ℕ) :
    s.accrued price w k = {
      nsteps := s.nsteps + k
      nf := s.nf + (price * ∑ i ∈ Finset.range k, (w i).jacobians +
        ∑ i ∈ Finset.range k, (w i).trials : ℕ)
      njacs := s.njacs + (∑ i ∈ Finset.range k, (w i).jacobians : ℕ)
      nfactors := s.nfactors + (∑ i ∈ Finset.range k, (w i).factors : ℕ)
      nsolve := s.nsolve + (∑ i ∈ Finset.range k, (w i).solves : ℕ) } := by
  induction k with
  | zero => simp [accrued]
  | succ k ih =>
    rw [accrued, ih]
    simp only [charged, countStep, Finset.sum_range_succ, Stats.mk.injEq]
    push_cast
    exact ⟨by ring, by ring, by ring, by ring, by ring⟩

namespace Newton

variable {search : Option (LineSearch.Params Float)} {l : Linearization Float} {o : Options Float}
  {y z x : Iteration Float n Unit} {delta : Vec Float n}

theorem wp_follow_stats (hz : Still y z) : (follow search o delta).wp
    (fun _ x => x.stats = z.stats.countTrials (triedAlong search o y delta).length)
    (fun _ _ => True) z := by
  rw [follow, Act.wp_bind, Act.wp_read, hz.u]
  cases search with
  | none =>
    rw [moveTo, Act.wp_bind, Act.wp_update, wp_refresh_into]
    split
    · rfl
    · trivial
  | some prm =>
    have hstate : ((searched o prm delta).run z).state =
        z.trying (triedAlong (some prm) o y delta) := by
      rw [searched, Act.run_read_bind, search_state, hz.problem, hz.u, hz.fu]
      rfl
    rw [Act.wp_bind, Act.wp_attempt]
    refine (Act.wp_self _ _).mono (fun t x hx => ?_) fun e x hx => ?_
    · obtain rfl := hx.2
      exact congrArg stats hstate
    · obtain rfl := hx.2
      dsimp only
      split
      · rw [Act.wp_bind, Act.wp_log, quit, wp_terminate]
        exact congrArg stats hstate
      · trivial

/-- A step builds its Jacobian and solves with it once. -/
theorem wp_advance_stats (hl : l.concrete = true) : (advance search l o).wp
    (fun _ x => ∃ J, Jacobian.Yields y.problem l.differencing y.u y.fu J ∧
      x.stats = ((y.stats.countDense (Jacobian.price y.problem.system l.differencing)).countLinear
        (l.solver.factors J)).countTrials (tried search l o y).length)
    (fun _ _ => True) y := by
  have hbuild : Jacobian.build l.concrete y.problem l.differencing y.u y.fu =
      Jacobian.dense y.problem l.differencing y.u y.fu >>= fun J => pure (.dense J) := by
    rw [Jacobian.build, if_pos hl, Jacobian.dense, bind_assoc]
  rw [advance, Act.wp_bind, Act.wp_read, hbuild, Act.wp_bind, counting, Act.wp_zoom, Act.wp_bind]
  refine (Jacobian.wp_dense_price euclid_unit).returning.mono (fun J st h => ?_) fun _ _ h => h
  obtain ⟨hJ, rfl⟩ := h
  have hsolved : ∀ r, ((l.solver.solve (.dense J) (-y.fu) y.u.toList y.problem.parameter).run
      (y.stats.countDense (Jacobian.price y.problem.system l.differencing))).result = r →
      tried search l o y = Vec.triedWith (triedAlong search o y) r := by
    intro r hr
    rw [tried, hbuild, bind_assoc, hJ.bind_result]
    exact congrArg _ hr
  rw [Act.wp_pure, Act.wp_bind, Act.wp_attempt, counting, Act.wp_zoom]
  refine (Act.wp_self _ _).mono (fun delta st hst => ?_) fun e st hst => ?_
  · obtain ⟨hr, rfl⟩ := hst
    rw [LinearSolver.solve_price, hsolved _ hr]
    dsimp only [Vec.triedWith]
    split
    · exact (wp_follow_stats ⟨rfl, rfl, rfl, rfl, rfl⟩).mono
        (fun _ x hx => ⟨J, Jacobian.yields_of_returns hJ, hx⟩) fun _ _ h => h
    · rw [quit, wp_terminate]
      exact ⟨J, Jacobian.yields_of_returns hJ, by simp [Stats.countTrials]⟩
  · obtain ⟨hr, rfl⟩ := hst
    rw [LinearSolver.solve_price, hsolved _ hr]
    dsimp only [Vec.triedWith]
    split
    · rw [Act.wp_bind, Act.wp_log, quit, wp_terminate]
      exact ⟨J, Jacobian.yields_of_returns hJ, by simp [Stats.countTrials]⟩
    · trivial

end Newton

namespace TrustRegion

variable {scheme : Scheme} {prm : Params Float} {l : Linearization Float}
  {y z x : Iteration Float n (Memory Float n)} {J : Mat Float n n} {s r : Vec Float n}

theorem tried_of_finds (h : Finds l y J s) : tried l y = if s.allFinite then [y.u + s] else [] := by
  obtain ⟨z, x, hJ, hs⟩ := h
  rw [tried, hJ.bind_result, hs.1]
  rfl

theorem jacobian_stats (h : (jacobian l).Returns y J z) : ∃ j : ℕ,
    z.stats = y.stats.charged (Jacobian.price y.problem.system l.differencing) ⟨0, j, 0, 0⟩ := by
  obtain ⟨-, rfl⟩ | ⟨-, st, hb, rfl⟩ := jacobian_cases h
  · exact ⟨0, by simp [Stats.charged]⟩
  · refine ⟨1, ?_⟩
    rw [hb.wp_iff.mp (Jacobian.wp_dense_price euclid_unit)]
    simp [Stats.charged, Stats.countDense]

/-- A step solves once, and builds Jacobians as it needs them. -/
theorem Costs.charged (h : Costs scheme prm l y x) : ∃ w : Work,
    w.trials = (tried l y).length ∧ w.solves = 1 ∧
      (∃ J : Mat Float n n, w.factors = l.solver.factors J) ∧
      x.stats = y.stats.charged (Jacobian.price y.problem.system l.differencing) w := by
  have hone : ∀ {J : Mat Float n n} {s r : Vec Float n}, Tries l y J s r →
      1 = (tried l y).length := by
    intro J s r ht
    rw [tried_of_finds ht.found, if_pos ht.finite]
    rfl
  have hstays : ∀ {J : Mat Float n n} {s r : Vec Float n} {z : Iteration Float n (Memory Float n)},
      (jacobian l).Returns y J z → Tries l y J s r →
      x.stats = (z.stats.countLinear (l.solver.factors J)).countResidual →
      ∃ w : Work, w.trials = (tried l y).length ∧ w.solves = 1 ∧
        (∃ J : Mat Float n n, w.factors = l.solver.factors J) ∧
        x.stats = y.stats.charged (Jacobian.price y.problem.system l.differencing) w := by
    intro J s r z hJ ht hwork
    obtain ⟨j, hj⟩ := jacobian_stats hJ
    refine ⟨⟨1, j, l.solver.factors J, 1⟩, hone ht, rfl, ⟨J, rfl⟩, ?_⟩
    rw [hwork, hj]
    simp [Stats.charged, Stats.countLinear, Stats.countResidual, Int.add_assoc]
  cases h with
  | @strays J s z hJ hf hs hleft hwork =>
    obtain ⟨j, hj⟩ := jacobian_stats hJ
    refine ⟨⟨0, j, l.solver.factors J, 1⟩, ?_, rfl, ⟨J, rfl⟩, ?_⟩
    · rw [tried_of_finds hf, if_neg (by simp [hs])]
      rfl
    · rw [hwork, hj]
      simp [Stats.charged, Stats.countLinear]
  | rejects hJ ht _ _ hwork => exact hstays hJ ht hwork
  | accepts hJ ht _ _ _ hwork => exact hstays hJ ht hwork
  | @rebuilds J K s r z shrinks hJ ht hjudges hscheme hleft hwork =>
    obtain ⟨j, hj⟩ := jacobian_stats hJ
    refine ⟨⟨1, j + 1, l.solver.factors J, 1⟩, hone ht, rfl, ⟨J, rfl⟩, ?_⟩
    rw [hwork.wp_iff.mp (Jacobian.wp_dense_price euclid_unit), hj]
    simp only [Stats.charged, Stats.countLinear, Stats.countResidual, Stats.countDense,
      Stats.mk.injEq]
    push_cast
    exact ⟨trivial, by ring, by ring, by ring, by ring⟩

end TrustRegion

namespace Secant

variable {ε : Type} {plan : Plan Float ε} {y : Iteration Float n (Memory ε)} {delta : Vec Float n}
  {updated : ε → Vec Float n → Vec Float n → Option ε}

variable (plan y delta updated) in
theorem wp_follow_stats : (follow plan delta updated).wp
    (fun _ x => x.stats = y.stats.countTrials (triedAlong y delta).length) (fun _ _ => True) y := by
  rw [wp_follow_iff, triedAlong, Vec.triedWith]
  split
  · split
    · exact learned_stats plan y delta updated
    · trivial
  · rw [afterReset_stats]
    simp [Stats.countTrials]

end Secant

open Secant in
theorem Klement.wp_advance_stats {limit : ℕ} {o : Options Float}
    {y : Iteration Float n (Memory (Vec Float n))} : (advance limit o).wp
      (fun _ x => x.stats = y.stats.countTrials (tried limit y).length) (fun _ _ => True) y := by
  rw [advance, Act.wp_bind, Act.wp_read, tried]
  split
  · rw [Act.wp_bind, wp_registerReset_iff]
    by_cases hlimit : limit < y.memory.resets + 1
    · rw [if_pos hlimit, if_neg (by simpa [plan] using hlimit), Act.wp_pure, afterReset_stats]
      simp [Stats.countTrials]
    · have hfollow := wp_follow_stats (plan limit o n) (afterReset (plan limit o n) y)
        (delta (Vec.ones n) y.fu) updated
      rw [triedAlong, afterReset_u, afterReset_stats] at hfollow
      have hplan : ¬ (plan limit o n).limit < y.memory.resets + 1 := hlimit
      rw [if_neg hlimit, if_pos (decide_eq_true (Nat.not_lt.mp hplan)), propose, Act.wp_bind,
        Act.wp_read, afterReset_estimate, if_neg hplan, afterReset_fu]
      exact hfollow
  · rw [propose, Act.wp_bind, Act.wp_read]
    exact wp_follow_stats ..

open Secant in
theorem Broyden.wp_advance_stats {limit : ℕ} {o : Options Float}
    {y : Iteration Float n (Memory (Mat Float n n))} : (advance limit o).wp
      (fun _ x => x.stats = y.stats.countTrials (tried y).length) (fun _ _ => True) y := by
  rw [advance, Act.wp_bind, Act.wp_read]
  exact wp_follow_stats ..

namespace Candidate

variable [LinearRoutines Float]

/-- Newton's method has its Jacobian as a matrix; the other methods have no choice. -/
def Materializes : Candidate → Prop
  | .newton _ configuration => configuration.linearization.concrete = true
  | _ => True

/-- The evaluations that a candidate needs for a Jacobian of a system. -/
def price (c : Candidate) (S : System Float n) : ℕ :=
  Jacobian.price S c.configuration.linearization.differencing

/-- What a candidate does in the next step of a session: besides trying points, it builds a Jacobian
and solves with it, it solves with the one at hand, or neither. -/
structure Performs (c : Candidate) (s : Session Float n) (w : Work) : Prop where
  trials : w.trials = s.tried.length
  rest : match c with
    | .newton _ configuration => w.jacobians = 1 ∧ w.solves = 1 ∧ ∃ J,
      Jacobian.Yields s.problem configuration.linearization.differencing s.iteration.u
        s.iteration.fu J ∧ w.factors = configuration.linearization.solver.factors J
    | .trustRegion _ _ configuration => w.solves = 1 ∧ ∃ J : Mat Float n n,
      w.factors = configuration.linearization.solver.factors J
    | _ => w.jacobians = 0 ∧ w.solves = 0 ∧ w.factors = 0

variable {c : Candidate} {o : Options Float}

/-- What a lap counts besides the step is the work of the candidate. -/
theorem performs_of_lap (hc : c.BuiltIn) (hm : c.Materializes)
    {y x : Iteration Float n (c.algorithm.Memory n)}
    (h : (lap (c.algorithm.method o n)).Returns y () x) :
    ∃ w, c.Performs ⟨c.algorithm, o, y⟩ w ∧
      x.stats = (y.stats.charged (c.price y.problem.system) w).countStep := by
  refine h.wp_iff.mp (wp_lap_advance.mpr ?_ : (lap (c.algorithm.method o n)).wp
    (fun _ x => ∃ w, c.Performs ⟨c.algorithm, o, y⟩ w ∧
      x.stats = (y.stats.charged (c.price y.problem.system) w).countStep) (fun _ _ => True) y)
  have hsecant : ∀ {x : Stats} {k : ℕ}, x = y.stats.countTrials k →
      x.countStep = (y.stats.charged (c.price y.problem.system) ⟨k, 0, 0, 0⟩).countStep := by
    rintro _ k rfl
    simp [Stats.countTrials, Stats.charged]
  cases c with
  | newton search configuration =>
    refine (Newton.wp_advance_stats hm).mono (fun _ x hx => ?_) fun _ _ h => h
    obtain ⟨J, hJ, hx⟩ := hx
    have hwork : ∀ (s : Stats) (p f t : ℕ),
        ((s.countDense p).countLinear f).countTrials t = s.charged p ⟨t, 1, f, 1⟩ := by
      intro s p f t
      simp [Stats.countTrials, Stats.countLinear, Stats.countDense, Stats.charged, Int.add_assoc]
    rw [hwork] at hx
    exact ⟨_, ⟨rfl, rfl, rfl, J, hJ, rfl⟩, congrArg Stats.countStep hx⟩
  | trustRegion scheme rule configuration =>
    refine TrustRegion.wp_advance_costs.mono (fun _ x hx => ?_) fun _ _ h => h
    obtain ⟨w, htrials, hsolves, hfactors, hx⟩ := hx.charged
    exact ⟨w, ⟨htrials, hsolves, hfactors⟩, congrArg Stats.countStep hx⟩
  | klement limit configuration =>
    exact Klement.wp_advance_stats.mono (fun _ x hx => ⟨_, ⟨rfl, rfl, rfl, rfl⟩, hsecant hx⟩)
      fun _ _ h => h
  | broyden limit configuration =>
    exact Broyden.wp_advance_stats.mono (fun _ x hx => ⟨_, ⟨rfl, rfl, rfl, rfl⟩, hsecant hx⟩)
      fun _ _ h => h
  | replay script configuration => exact hc.elim

/-- What is counted in a run is the work of its steps, one by one. -/
theorem stats_of_laps (hc : c.BuiltIn) (hm : c.Materializes)
    {b x : Iteration Float n (c.algorithm.Memory n)} {k : ℕ}
    (h : Laps (c.algorithm.method o n) k b x) : ∃ w : ℕ → Work,
      (∀ i < k, c.Performs (Session.after i ⟨c.algorithm, o, b⟩) (w i)) ∧
      x.stats = b.stats.accrued (c.price b.problem.system) w k := by
  have hstep : ∀ i, ∃ w, i < k → c.Performs (Session.after i ⟨c.algorithm, o, b⟩) w ∧
      (after (c.algorithm.method o n) (i + 1) b).stats =
        ((after (c.algorithm.method o n) i b).stats.charged (c.price b.problem.system)
          w).countStep := by
    intro i
    by_cases hi : i < k
    · obtain ⟨z, hlaps, -, hl, hnext⟩ := h.at hi
      obtain ⟨w, hw, hstats⟩ := performs_of_lap hc hm hl
      refine ⟨w, fun _ => ⟨?_, ?_⟩⟩
      · rw [Session.after_eq]
        exact hw
      · rw [hnext, tested_stats, hstats, hlaps.problem (c.algorithm.keeps_at o)]
    · exact ⟨⟨0, 0, 0, 0⟩, fun h => absurd h hi⟩
  choose w hw using hstep
  have hstats : ∀ i ≤ k, (after (c.algorithm.method o n) i b).stats =
      b.stats.accrued (c.price b.problem.system) w i := by
    intro i hi
    induction i with
    | zero => rfl
    | succ i ih => rw [(hw i hi).2, ih (Nat.le_of_succ_le hi), Stats.accrued]
  have hend : (after (c.algorithm.method o n) k b).stats = x.stats := by
    simpa using congrArg Iteration.stats h.after
  exact ⟨w, fun i hi => (hw i hi).1, hend.symm.trans (hstats k le_rfl)⟩

/-- What the counters of a run that began at `b` come to, by the method of the candidate. -/
def Accounts (c : Candidate) (b : Session Float n) (s : Stats) : Prop :=
  match c with
  | .newton _ configuration => s.njacs = s.nsteps ∧ s.nsolve = s.nsteps ∧
    (configuration.linearization.method = .lu →
      (∀ i : ℕ, i < s.nsteps → ∀ J, Jacobian.Yields (b.after i).problem
        configuration.linearization.differencing (b.after i).iteration.u
        (b.after i).iteration.fu J → J.allFinite = true) →
      s.nfactors = s.nsolve)
  | .trustRegion _ _ _ => s.nsolve = s.nsteps ∧ s.njacs ≤ s.nsteps + 1
  | _ => s.njacs = 0 ∧ s.nsolve = 0 ∧ s.nfactors = 0

section Totals

variable {b : Session Float n} {k : ℕ} {w : ℕ → Work}
  (hw : ∀ i < k, c.Performs (b.after i) (w i))

include hw

theorem nf_of_work {price : ℕ} {s : Stats}
    (hs : s = ({} : Stats).countResidual.accrued price w k) :
    s.nf = 1 + price * s.njacs + (∑ i ∈ Finset.range k, (b.after i).tried.length : ℕ) := by
  have htrials : ∑ i ∈ Finset.range k, (w i).trials =
      ∑ i ∈ Finset.range k, (b.after i).tried.length :=
    Finset.sum_congr rfl fun i hi => (hw i (Finset.mem_range.mp hi)).trials
  rw [hs, Stats.accrued_eq]
  simp only [htrials, Stats.countResidual]
  push_cast
  ring

/-- A step has no more factorizations than linear solves, and none unless it eliminates. -/
theorem factors_le_solves {i : ℕ} (hi : i < k) : (w i).factors ≤ (w i).solves ∧
    (c.configuration.linearization.method ≠ .lu → (w i).factors = 0) := by
  have hrest := (hw i hi).rest
  have hlu : ∀ {l : Linearization Float} {J : Mat Float n n}, l.method ≠ .lu →
      l.solver.factors J = 0 := fun hne => if_neg fun h => hne h.1
  cases c with
  | newton search configuration =>
    obtain ⟨-, hsolves, J, -, hfactors⟩ := hrest
    rw [hsolves, hfactors]
    exact ⟨LinearSolver.factors_le_one _ J, hlu⟩
  | trustRegion scheme rule configuration =>
    obtain ⟨hsolves, J, hfactors⟩ := hrest
    rw [hsolves, hfactors]
    exact ⟨LinearSolver.factors_le_one _ J, hlu⟩
  | klement limit configuration => exact ⟨by omega, fun _ => hrest.2.2⟩
  | broyden limit configuration => exact ⟨by omega, fun _ => hrest.2.2⟩
  | replay script configuration => exact ⟨by omega, fun _ => hrest.2.2⟩

theorem nfactors_of_work {price : ℕ} {s : Stats}
    (hs : s = ({} : Stats).countResidual.accrued price w k) : s.nfactors ≤ s.nsolve ∧
      (c.configuration.linearization.method ≠ .lu → s.nfactors = 0) := by
  rw [hs, Stats.accrued_eq]
  refine ⟨?_, fun hlu => ?_⟩
  · have hsum := Finset.sum_le_sum fun i hi => (factors_le_solves hw (Finset.mem_range.mp hi)).1
    exact Int.add_le_add_left (Int.ofNat_le.mpr hsum) _
  · have hsum : ∑ i ∈ Finset.range k, (w i).factors = 0 := Finset.sum_eq_zero fun i hi =>
      (factors_le_solves hw (Finset.mem_range.mp hi)).2 hlu
    rw [hsum]
    rfl

/-- The steps of a run add up to what the method of the candidate says, for a trust region given
that few enough of its Jacobians are built. -/
theorem accounts_of_work {price : ℕ} {s : Stats}
    (hs : s = ({} : Stats).countResidual.accrued price w k)
    (hjacs : ∀ scheme rule configuration, c = .trustRegion scheme rule configuration →
      s.njacs ≤ k + 1) : c.Accounts b s := by
  have hones : ∀ f : Work → ℕ, (∀ i < k, f (w i) = 1) → ∑ i ∈ Finset.range k, f (w i) = k := by
    intro f hf
    simpa using Finset.sum_eq_card_nsmul fun i hi => hf i (Finset.mem_range.mp hi)
  have hnone : ∀ f : Work → ℕ, (∀ i < k, f (w i) = 0) → ∑ i ∈ Finset.range k, f (w i) = 0 :=
    fun f hf => Finset.sum_eq_zero fun i hi => hf i (Finset.mem_range.mp hi)
  have hrest := fun i (hi : i < k) => (hw i hi).rest
  rw [Stats.accrued_eq] at hs
  cases c with
  | newton search configuration =>
    have hsolves := hones Work.solves fun i hi => (hrest i hi).2.1
    refine ⟨?_, ?_, fun hlu hfinite => ?_⟩
    · rw [hs, hones Work.jacobians fun i hi => (hrest i hi).1]
      rfl
    · rw [hs, hsolves]
      rfl
    · rw [hs] at hfinite ⊢
      have hfactors := hones Work.factors fun i hi => by
        obtain ⟨-, -, J, hJ, hfactors⟩ := hrest i hi
        rw [hfactors]
        exact if_pos ⟨hlu, hfinite i (by simpa [Stats.countResidual] using hi) J hJ⟩
      rw [hfactors, hsolves]
      rfl
  | trustRegion scheme rule configuration =>
    have hsteps : s.nsteps = k := by simp [hs, Stats.countResidual]
    refine ⟨?_, hsteps ▸ hjacs scheme rule configuration rfl⟩
    rw [hs, hones Work.solves fun i hi => (hrest i hi).1]
    rfl
  | _ =>
    refine ⟨?_, ?_, ?_⟩
    · rw [hs, hnone Work.jacobians fun i hi => (hrest i hi).1]
      rfl
    · rw [hs, hnone Work.solves fun i hi => (hrest i hi).2.1]
      rfl
    · rw [hs, hnone Work.factors fun i hi => (hrest i hi).2.2]
      rfl

end Totals

end Candidate

/-- The accounts of a run, from where a candidate was set to work or started over, whatever was
asked of it before: as long as it goes on with steps and solves that return, the residual was
evaluated once at the beginning, for every Jacobian as often as its differences need, and once at
every point that a step tried. How many Jacobians, linear solves and factorizations there were, the
method of the candidate says. -/
theorem work_adds_up [LinearRoutines Float] {call : Call} {problem : Problem Float n}
    {c : Candidate} (hc : c.BuiltIn) (hm : c.Materializes) {b e : Session Float n}
    (hb : c.Begins call problem b) {rs : List Session.Request} (h : Act.Served Session.serve
      (fun s r => (r = .step ∨ r = .solve) ∧ Act.Granted Session.serve s r) b rs e) :
    ∃ k : ℕ, e.iteration.stats.nsteps = k ∧
      e.iteration.stats.nf = 1 + c.price b.problem.system * e.iteration.stats.njacs +
        (∑ i ∈ Finset.range k, (b.after i).tried.length : ℕ) ∧
      c.Accounts b e.iteration.stats ∧
      e.iteration.stats.nfactors ≤ e.iteration.stats.nsolve ∧
      (c.configuration.linearization.method ≠ .lu → e.iteration.stats.nfactors = 0) := by
  obtain ⟨it, ⟨k, x, hx, ht⟩, rfl⟩ : b.OnCourse e :=
    h.keeps ⟨b.iteration, .refl _, rfl⟩ fun s r hs hr => hs.serve hr.1 hr.2
  obtain ⟨hown, P, fu, hbegun⟩ := hb.begun
  obtain ⟨a, o, it₀⟩ := b
  obtain rfl : a = c.algorithm := hown.algorithm
  obtain ⟨w, hw, hstats⟩ := Candidate.stats_of_laps hc hm hx
  have hfirst : it₀.stats = ({} : Stats).countResidual := congrArg Iteration.stats hbegun
  have hit : it.stats = x.stats := by simpa using congrArg Iteration.stats ht
  have hs : it.stats = ({} : Stats).countResidual.accrued (c.price it₀.problem.system) w k := by
    rw [← hfirst, hit]
    exact hstats
  have hfactors := Candidate.nfactors_of_work hw hs
  refine ⟨k, ?_, Candidate.nf_of_work hw hs, Candidate.accounts_of_work hw hs ?_, hfactors⟩
  · rw [hs, Stats.accrued_eq]
    exact Int.zero_add _
  · rintro scheme rule configuration rfl
    rw [hit]
    exact TrustRegion.njacs_le_of_laps hbegun hx

/-- The system without a root, and without its Jacobian. -/
def rootlessUnaided : Problem Float 1 :=
  { rootless with system := .outOfPlace (fun u _ => .ok (u.map fun x => x * x + 1.0)) none }

/-- In three steps the search tries as many points as are left of the evaluations without the one at
the beginning and one for every Jacobian. -/
theorem work_adds_up_rootless : ∃ b e : Session Float 1,
    damped.BuiltIn ∧ damped.Materializes ∧ damped.Begins .plain rootlessUnaided b ∧
    Act.Served Session.serve (fun s r => (r = .step ∨ r = .solve) ∧ Act.Granted Session.serve s r) b
      [.step, .solve] e ∧
    e.iteration.stats = ⟨3, 26, 3, 3, 3⟩ ∧ damped.price b.problem.system = 1 ∧
    ∑ i ∈ Finset.range 3, (b.after i).tried.length = 22 := by
  have hrun : ((damped.init .plain rootlessUnaided).run ()).result.toOption.map (fun b =>
      let s := ((Session.serve .step).run b).state
      let e := ((Session.serve .solve).run s).state
      (((Session.serve .step).run b).result.isOk, ((Session.serve .solve).run s).result.isOk,
        e.iteration.stats, damped.price b.problem.system)) =
      some (true, true, ⟨3, 26, 3, 3, 3⟩, 1) := by decide +kernel
  cases hb : ((damped.init .plain rootlessUnaided).run ()).result with
  | error e => rw [hb] at hrun; cases hrun
  | ok b =>
    rw [hb] at hrun
    simp only [Except.toOption, Option.map_some, Option.some.injEq, Prod.mk.injEq] at hrun
    obtain ⟨h₁, h₂, hstats, hprice⟩ := hrun
    have hserved : Act.Served Session.serve
        (fun s r => (r = .step ∨ r = .solve) ∧ Act.Granted Session.serve s r) b [.step, .solve] _ :=
      .more ⟨.inl rfl, h₁⟩ (.more ⟨.inr rfl, h₂⟩ (.none _))
    have hm : damped.Materializes := rfl
    obtain ⟨k, hsteps, hnf, -⟩ := work_adds_up (c := damped) trivial hm (.init hb) hserved
    rw [hstats] at hsteps hnf
    obtain rfl : k = 3 := by
      have hk : (3 : ℤ) = k := hsteps
      omega
    rw [hprice] at hnf
    refine ⟨b, _, trivial, hm, .init hb, hserved, hstats, hprice, ?_⟩
    have hsum : (26 : ℤ) = 1 + 1 * 3 +
      (∑ i ∈ Finset.range 3, (Session.after i b).tried.length : ℕ) := hnf
    omega

end Rootfinder
