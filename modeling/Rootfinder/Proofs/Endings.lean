import Rootfinder.Proofs.Interleaving
import Rootfinder.Proofs.Quitting
import Rootfinder.Proofs.Reports
import Rootfinder.Proofs.Restarts

namespace Rootfinder

variable {α σ : Type} {n k : Nat}

namespace Iteration

variable [Scalar α] {m : Method α n σ} {b e it x y : Iteration α n σ}

/-- What the residual is like if the test ends a run. -/
theorem verdict_cases {o : Options α} {code : ReturnCode} (h : it.verdict o = some code) :
    code = .failure ∧ Scalar.isFinite (o.norm.of it.fu) = false ∨
    Scalar.isFinite (o.norm.of it.fu) = true ∧
      (code = .success ∧ o.norm.of it.fu ≤ o.tolerance ∨
        code = .maxIters ∧ ¬ o.norm.of it.fu ≤ o.tolerance ∧ o.budget ≤ it.stats.nsteps) := by
  simp only [verdict] at h
  split at h
  · rename_i hinfinite
    exact .inl ⟨(Option.some.inj h).symm, by simpa using hinfinite⟩
  · rename_i hfinite
    refine .inr ⟨by simpa using hfinite, ?_⟩
    split at h
    · exact .inl ⟨(Option.some.inj h).symm, ‹_›⟩
    · rename_i hgreater
      split at h
      · exact .inr ⟨(Option.some.inj h).symm, hgreater, ‹_›⟩
      · cases h

/-- A state that the test lets pass is the one after as many steps as laps. -/
theorem Laps.after_eq (h : Laps m k it x) (ho : (x.tested m).terminated = false) :
    Iteration.after m k it = x := by
  have ht := h.after
  rw [← ht] at ho
  rw [← (tested_eq_self ho).2.2, ht, (tested_eq_self (ht ▸ ho)).2.2]

/-- Each of some laps goes from the state after as many steps as there were laps before it; the next
step leads to where it went, up to the test. -/
theorem Laps.at (h : Laps m k it x) {i : ℕ} (hi : i < k) : ∃ z,
    Laps m i it (Iteration.after m i it) ∧
    ((Iteration.after m i it).tested m).terminated = false ∧
    (lap m).Returns (Iteration.after m i it) () z ∧
    Iteration.after m (i + 1) it = z.tested m := by
  induction h generalizing i with
  | none => exact absurd hi (Nat.not_lt_zero i)
  | @more k it it' x ho hl h ih =>
    have hstep : ((Iteration.step m).run it).state = it'.tested m := (returns_step_lap ho hl).2
    cases i with
    | zero => exact ⟨it', .none it, ho, hl, hstep⟩
    | succ i =>
      have hpasses : it'.tested m = it' := by
        cases h with
        | none => exact absurd hi (by omega)
        | more ho' _ _ => exact (tested_eq_self ho').2.2
      have hafter : ∀ j, Iteration.after m (j + 1) it = Iteration.after m j it' := by
        intro j
        rw [Iteration.after, hstep, hpasses]
      obtain ⟨z, hz, hzo, hzl, hze⟩ := ih (Nat.lt_of_succ_lt_succ hi)
      refine ⟨z, ?_, ?_, ?_, ?_⟩
      · rw [hafter]
        exact .more ho hl hz
      · rwa [hafter]
      · rwa [hafter]
      · rwa [hafter]

variable {S : σ → Prop} {Q : Iteration α n σ → Iteration α n σ → Prop}

variable (m b Q) in
/-- The ways for a run to end: the test judges the residual, or the last step gives up. -/
inductive Ending : Iteration α n σ → Prop where
  | judged {k : Nat} {x : Iteration α n σ} {code : ReturnCode} (h : Laps m k b x)
    (hv : x.verdict m.options = some code) : Ending (x.ended code)
  | quit {k : Nat} {y x : Iteration α n σ} (h : Laps m k b y) (ho : (y.tested m).terminated = false)
    (hl : (lap m).Returns y () x) (hs : x.stopped = true) (hq : Q y x) : Ending x

section Runs

variable
  (hadvance : ∀ y, y.terminated = false → S y.memory →
    m.advance.wp (fun _ => Onward S (Q y)) (fun _ _ => True) y)
  (hcounted : ∀ y x s, Q y x → Q y { x with stats := s })

include hadvance hcounted

omit [Scalar α] in
/-- A lap goes on, or ends the run as its step does. -/
theorem lap_onward (hrun : y.terminated = false) (hy : S y.memory)
    (hl : (lap m).Returns y () x) : Onward S (Q y) x := by
  refine hl.wp_iff.mp (?_ : (lap m).wp (fun _ => Onward S (Q y)) (fun _ _ => True) y)
  rw [lap, Act.wp_bind]
  refine (hadvance y hrun hy).mono (fun _ z hz => ?_) fun _ _ _ => trivial
  exact hz.imp_right fun hz => ⟨hz.1, hcounted y z _ hz.2⟩

/-- A run that is not over is steady. -/
theorem Laps.steady (h : Laps m k b x) (hb : S b.memory) (hx : x.terminated = false) :
    S x.memory := by
  induction k generalizing x with
  | zero =>
    cases h
    exact hb
  | succ k ih =>
    obtain ⟨y, hy, ho, hl⟩ := h.last
    have hrun := (tested_eq_self ho).1
    obtain ⟨-, hx'⟩ | ⟨hs, -⟩ := lap_onward hadvance hcounted hrun (ih hy hrun) hl
    · exact hx'
    · rw [terminated, hs] at hx
      cases hx

/-- A run that has begun and is over was ended by the test or by its last step. -/
theorem OnCourse.ending (h : OnCourse m b e) (hrun : b.terminated = false)
    (hb : S b.memory) (he : e.terminated = true) : Ending m b Q e := by
  obtain ⟨k, x, hx, ht⟩ := h
  rw [tested_of_terminated he] at ht
  obtain htested | ⟨-, code, hv, htested⟩ := tested_cases (m := m) x
  · obtain rfl : e = x := ht.trans htested
    cases k with
    | zero =>
      cases hx
      rw [hrun] at he
      cases he
    | succ k =>
      obtain ⟨y, hy, ho, hl⟩ := hx.last
      have hyrun := (tested_eq_self ho).1
      have hsteady := hy.steady hadvance hcounted hb hyrun
      obtain ⟨hx', -⟩ | ⟨hs, hq⟩ := lap_onward hadvance hcounted hyrun hsteady hl
      · rw [hx'] at he
        cases he
      · exact .quit hy ho hl hs hq
  · rw [ht, htested]
    exact .judged hx hv

end Runs

end Iteration

open Iteration

/-- What a step that ended a run shows does not depend on the statistics. -/
theorem Algorithm.quits_counted [Scalar α] {a : Algorithm α} {o : Options α}
    (y x : Iteration α n (a.Memory n)) (s : Stats) (h : a.Quits o y x) :
    a.Quits o y { x with stats := s } := by
  cases a with
  | newton search l => exact ⟨h.u, h.fu, h.reason⟩
  | trustRegion scheme prm l =>
    cases h with
    | astray hc hu hfu h => exact .astray hc hu hfu h
    | shrunk hc hk hs hstays => exact .shrunk hc hk hs hstays
  | klement limit => exact ⟨h.code, h.resets⟩
  | broyden limit => exact ⟨h.code, h.resets⟩
  | replay script => trivial

namespace Backtracking

/-- A cap that cannot be used is a wrong type. -/
theorem capped_params (b : Backtracking) {e : Fault Float} (h : b.params.maxDelta = .error e) :
    e.kind ≠ .convergence := by
  obtain ⟨reduction, least, armijo, maxDelta⟩ := b
  simp only [params] at h
  unfold cap at h
  split at h
  · split at h
    · cases h
    · obtain rfl := Except.error.inj h
      decide
  · cases h

end Backtracking

theorem Candidate.capped [LinearRoutines Float] (c : Candidate) : c.algorithm.Capped := by
  cases c with
  | newton search configuration =>
    intro prm hprm e he
    obtain ⟨b, -, rfl⟩ := Option.map_eq_some_iff.mp hprm
    exact b.capped_params he
  | _ => trivial

namespace Session

variable [Scalar α]

/-- How many steps in a row shrank the radius, in a trust region. -/
def shrinks? : Session α n → Option Nat
  | ⟨.trustRegion .., _, it⟩ => some it.memory.shrinks
  | _ => none

def resets? : Session α n → Option Nat
  | ⟨.klement _, _, it⟩ => some it.memory.resets
  | ⟨.broyden _, _, it⟩ => some it.memory.resets
  | _ => none

/-- The search along the Newton step at the iterate leads nowhere. -/
def Fruitless : Session α n → Prop
  | ⟨.newton (some prm) l, o, it⟩ => Newton.Fruitless l o it prm
  | _ => False

/-- The Newton step at the iterate cannot be solved for, or the step there is not finite. -/
def Stepless : Session α n → Prop
  | ⟨.newton _ l, _, it⟩ => Newton.Unsolved l it
  | ⟨.trustRegion _ _ l, _, it⟩ => TrustRegion.Astray l it
  | _ => False

/-- Nothing was moved by the last of a number of steps. -/
structure Stayed (b : Session α n) (k : Nat) (e : Session α n) : Prop where
  steps : e.iteration.stats.nsteps = k + 1
  u : e.iteration.u = (b.after k).iteration.u
  fu : e.iteration.fu = (b.after k).iteration.fu

/-- Before a lap, a session is the one after as many steps as laps. -/
theorem after_of_laps {b : Session α n} {y : Iteration α n (b.algorithm.Memory n)}
    (h : Laps b.method k b.iteration y) (ho : (y.tested b.method).terminated = false) :
    b.after k = { b with iteration := y } := by
  rw [after_eq, h.after_eq ho]

def OnCourse (b e : Session α n) : Prop :=
  ∃ it, Iteration.OnCourse b.method b.iteration it ∧ e = { b with iteration := it }

end Session

namespace Session

variable {b s e : Session Float n}

theorem OnCourse.step (h : b.OnCourse s) (hok : (Session.step.run s).result.isOk = true) :
    b.OnCourse (Session.step.run s).state := by
  obtain ⟨it, hc, rfl⟩ := h
  exact ⟨_, hc.step (Act.returns_of_isOk hok), rfl⟩

theorem OnCourse.solve (h : b.OnCourse s) {r : Run Float n} (hr : s.outcome = .ok r) :
    b.OnCourse s.driven := by
  obtain ⟨it, hc, rfl⟩ := h
  exact ⟨_, hc.solve b.method_advance_at ⟨hr, rfl⟩, rfl⟩

/-- A step or a solve that is granted goes on. -/
theorem OnCourse.serve (h : b.OnCourse s) {q : Request} (hq : q = .step ∨ q = .solve)
    (hok : Act.Granted Session.serve s q) : b.OnCourse ((Session.serve q).run s).state := by
  unfold Act.Granted at hok
  obtain rfl | rfl := hq
  · rw [Session.run_serve_step, except_isOk_map] at hok
    rw [Session.run_serve_step]
    exact h.step hok
  · rw [Session.run_serve_solve, except_isOk_map] at hok
    rw [Session.run_serve_solve]
    exact h.solve (outcome_of_isOk hok)

/-- A session that has ended stays as it is. -/
theorem served_ended {allowed : Session Float n → Request → Prop}
    (ha : ∀ s r, allowed s r → r = .step ∨ r = .solve) {rs : List Request}
    (h : Act.Served Session.serve allowed s rs e) (hs : s.iteration.terminated = true) : e = s := by
  refine h.keeps (P := fun t => t = s) rfl fun t r ht hr => ?_
  subst ht
  exact (bound_serve (ha t r hr)).2 hs

/-- A request that is granted ends the run or is one step. -/
theorem served_once {q : Request} (hq : q = .step ∨ q = .solve)
    (hok : Act.Granted Session.serve s q) :
    ((Session.serve q).run s).state.iteration.terminated = true ∨
      ((Session.serve q).run s).state.iteration.stats.nsteps = s.iteration.stats.nsteps + 1 := by
  unfold Act.Granted at hok
  obtain rfl | rfl := hq
  · rw [run_serve_step, except_isOk_map] at hok
    rw [run_serve_step]
    have hstep := Act.returns_of_isOk (x := Iteration.step s.method) hok
    have hw := hstep.wp_iff.mp (Iteration.wp_step s.method_advance_at)
    exact hw.2.imp_right And.left
  · rw [run_serve_solve, except_isOk_map] at hok
    rw [run_serve_solve]
    exact .inl (driven_terminated (outcome_of_isOk hok))

/-- A run that is not over has taken a step for every request. -/
theorem served_steps {rs : List Request}
    (h : Act.Served Session.serve
      (fun s r => (r = .step ∨ r = .solve) ∧ Act.Granted Session.serve s r) b rs e) :
    e.iteration.terminated = true ∨
      e.iteration.stats.nsteps = b.iteration.stats.nsteps + rs.length := by
  induction h with
  | none => exact .inr (by simp)
  | more hr h ih =>
    obtain hended | hstep := served_once hr.1 hr.2
    · rw [served_ended (fun _ _ hr => hr.1) h hended]
      exact .inl hended
    · refine ih.imp_right fun he => ?_
      rw [he, hstep, List.length_cons]
      omega

end Session

namespace Candidate

variable {call : Call} {problem : Problem Float n} {c : Candidate} {b e s : Session Float n}

/-- What a code tells of a session whose run of the candidate began at `b`. -/
def Meaning (c : Candidate) (b e : Session Float n) : ReturnCode → Prop
  | .default => False
  | .success =>
    Scalar.isFinite (e.residualNorm none) = true ∧ e.residualNorm none ≤ e.options.tolerance
  | .maxIters => e.iteration.stats.nsteps = e.options.budget ∧
    Scalar.isFinite (e.residualNorm none) = true ∧ ¬ e.residualNorm none ≤ e.options.tolerance
  | .stalled => (∃ search configuration, c = .newton (some search) configuration) ∧
    ∃ k, b.Stayed k e ∧ (b.after k).Fruitless
  | .shrinkThresholdExceeded =>
    ∃ scheme rule configuration, c = .trustRegion scheme rule configuration ∧
      ∀ k : Nat, rule.maxShrinkTimes.truncated = .ok (k : Int) → e.shrinks? = some (k + 1)
  | .failure => Scalar.isFinite (e.residualNorm none) = false ∨
    (∃ k, b.Stayed k e ∧ (b.after k).Stepless) ∨
    ∃ limit configuration, (c = .klement limit configuration ∨ c = .broyden limit configuration) ∧
      e.resets? = some (limit + 1)

/-- The code of a session tells why its run ended. -/
def Telling (c : Candidate) (b e : Session Float n) : Prop := c.Meaning b e e.iteration.code

theorem Telling.of_code {code : ReturnCode} (hcode : e.iteration.code = code)
    (h : c.Meaning b e code) : Telling c b e := by
  rwa [Telling, hcode]

variable [LinearRoutines Float]

variable (call problem c b) in
/-- A run begins when a candidate is set to work, or when its session is started over, whatever was
asked of it before. -/
inductive Begins : Prop where
  | init (h : ((c.init call problem).run ()).result = .ok b)
  | reinit {s₀ s : Session Float n} {start : Value} {parameter : Option (Parameter Float)}
    (h₀ : ((c.init call problem).run ()).result = .ok s₀)
    (h : Act.Reached Session.serve (fun _ => True) s₀ s)
    (hr : (Session.reinitAt start parameter).Returns s () b)

structure Owns (call : Call) (c : Candidate) (s : Session Float n) : Prop where
  algorithm : s.algorithm = c.algorithm
  options : call.options = .ok s.options

theorem keeps_reinitAt_owns (start : Value) (parameter : Option (Parameter Float)) :
    (Session.reinitAt start parameter).Keeps (Owns (n := n) call c) :=
  Session.keeps_reinitAt (fun _ _ h => ⟨h.algorithm, h.options⟩) start

theorem keeps_serve_owns (r : Session.Request) :
    (Session.serve r).Keeps (Owns (n := n) call c) :=
  Session.keeps_request (fun _ h => ⟨h.algorithm, h.options⟩)
    (fun _ h => ⟨h.algorithm, h.options⟩) keeps_reinitAt_owns r

structure Opens (call : Call) (c : Candidate) (b : Session Float n) : Prop extends
    Owns call c b where
  running : b.iteration.terminated = false
  steps : b.iteration.stats.nsteps = 0
  steady : b.algorithm.Steady b.iteration.memory

theorem Owns.opens (h : Owns call c b) {P : Problem Float n} {fu : Vec Float n}
    (hb : b.iteration = begun b.method P fu) : Opens call c b := by
  refine ⟨h, ?_, ?_, ?_⟩ <;> rw [hb]
  · rfl
  · rfl
  · exact b.algorithm.steady_restart b.options P.start fu

/-- A run begins at the starting point of a problem. -/
theorem Begins.begun (h : c.Begins call problem b) :
    Owns call c b ∧ ∃ P fu, b.iteration = Iteration.begun b.method P fu := by
  cases h with
  | init h =>
    have hs := started h
    exact ⟨⟨hs.algorithm, hs.options⟩, _, _, hs.begun.2⟩
  | @reinit s₀ s start parameter h₀ h hr =>
    have hs := started h₀
    have hown : Owns call c s := h.keeps ⟨hs.algorithm, hs.options⟩ fun r _ => keeps_serve_owns r
    have hownb := keeps_reinitAt_owns start parameter s hown
    rw [hr.2] at hownb
    obtain ⟨P, -, -, rfl⟩ := hr.wp_iff.mp (s.wp_reinitAt_begun start parameter)
    exact ⟨hownb, _, _, rfl⟩

theorem Begins.opens (h : c.Begins call problem b) : Opens call c b := by
  obtain ⟨hown, P, fu, hb⟩ := h.begun
  exact hown.opens hb

/-- No run goes beyond its budget. -/
theorem Opens.laps_le (h : Opens call c b) {k : Nat} {x : Iteration Float n (b.algorithm.Memory n)}
    (hl : Laps b.method k b.iteration x) : x.stats.nsteps ≤ b.options.budget := by
  have hle := hl.steps_le b.method_advance_at (by rw [h.steps]; exact Int.natCast_nonneg _)
  rwa [b.method_options] at hle

theorem Opens.steps_le (h : Opens call c b) (he : b.OnCourse e) :
    e.iteration.stats.nsteps ≤ e.options.budget := by
  obtain ⟨it, ⟨k, x, hx, ht⟩, rfl⟩ := he
  have hsteps := congrArg (fun it => it.stats.nsteps) ht
  simp only [tested_stats] at hsteps
  exact hsteps.le.trans (h.laps_le hx)

/-- The test tells of the residual and of the steps only. -/
theorem Opens.telling_judged (h : Opens call c b) {k : Nat} {code : ReturnCode}
    {x : Iteration Float n (b.algorithm.Memory n)} (hl : Laps b.method k b.iteration x)
    (hv : x.verdict b.method.options = some code) :
    Telling c b { b with iteration := x.ended code } := by
  have hle := h.laps_le hl
  rw [b.method_options] at hv
  obtain ⟨rfl, hinfinite⟩ | ⟨hfinite, ⟨rfl, htolerance⟩ | ⟨rfl, hgreater, hbudget⟩⟩ :=
    verdict_cases hv
  · exact .inl hinfinite
  · exact ⟨hfinite, htolerance⟩
  · exact ⟨Int.le_antisymm hle hbudget, hfinite, hgreater⟩

/-- A step that gave up tells why. -/
theorem Opens.telling_quit (h : Opens call c b) (hc : c.BuiltIn) {k : Nat}
    {y x : Iteration Float n (b.algorithm.Memory n)} (hy : Laps b.method k b.iteration y)
    (ho : (y.tested b.method).terminated = false) (hl : (lap b.method).Returns y () x)
    (hq : b.algorithm.Quits b.options y x) : Telling c b { b with iteration := x } := by
  have hafter := Session.after_of_laps hy ho
  have hsteps : x.stats.nsteps = k + 1 := by
    rw [lap_steps b.method_advance_at hl, hy.steps b.method_advance_at, h.steps, Int.zero_add]
  obtain ⟨a, o, it⟩ := b
  obtain rfl := h.algorithm
  cases c with
  | newton search configuration =>
    obtain ⟨hu, hfu, hreason⟩ := hq
    have hstayed : Session.Stayed ⟨_, o, it⟩ k ⟨_, o, x⟩ :=
      ⟨hsteps, by rw [hafter]; exact hu, by rw [hafter]; exact hfu⟩
    obtain ⟨hcode, hunsolved⟩ | ⟨hcode, prm, hprm, hfruitless⟩ := hreason
    · refine .of_code hcode (.inr (.inl ⟨k, hstayed, ?_⟩))
      rw [hafter]
      exact hunsolved
    · obtain ⟨b, rfl, rfl⟩ := Option.map_eq_some_iff.mp hprm
      refine .of_code hcode ⟨⟨b, configuration, rfl⟩, k, hstayed, ?_⟩
      rw [hafter]
      exact hfruitless
  | trustRegion scheme rule configuration =>
    cases hq with
    | astray hcode hu hfu hastray =>
      refine .of_code hcode (.inr (.inl ⟨k, ⟨hsteps, ?_, ?_⟩, ?_⟩)) <;> rw [hafter]
      · exact hu
      · exact hfu
      · exact hastray
    | @shrunk hcode j hj hs =>
      refine .of_code hcode ⟨scheme, rule, configuration, rfl, fun i hi => ?_⟩
      have hji : j = i := by simpa [RadiusRule.params, hi, Except.toOption] using hj.symm
      rw [← hji]
      exact congrArg some hs
  | klement limit configuration =>
    exact .of_code hq.code (.inr (.inr ⟨limit, configuration, .inl rfl, congrArg some hq.resets⟩))
  | broyden limit configuration =>
    exact .of_code hq.code (.inr (.inr ⟨limit, configuration, .inr rfl, congrArg some hq.resets⟩))
  | replay script configuration => exact hc.elim

/-- A run that is over can be told from its code. -/
theorem Opens.telling (h : Opens call c b) (hc : c.BuiltIn) (he : b.OnCourse e)
    (hover : e.iteration.terminated = true) : e.iteration.stopped = true ∧ Telling c b e := by
  obtain ⟨it, hcourse, rfl⟩ := he
  have hbuiltIn : b.algorithm.BuiltIn := h.algorithm ▸ hc
  have hcapped : b.algorithm.Capped := h.algorithm ▸ c.capped
  have hending : Ending b.method b.iteration (b.algorithm.Quits b.options) it :=
    hcourse.ending (fun y hy hs => Algorithm.wp_advance hbuiltIn hcapped b.options hy hs)
      Algorithm.quits_counted h.running h.steady hover
  cases hending with
  | judged hl hv => exact ⟨rfl, h.telling_judged hl hv⟩
  | quit hy ho hl hs hq => exact ⟨hs, h.telling_quit hc hy ho hl hq⟩

end Candidate

/-- The meaning of the return codes. A run of a candidate that was set to work or started over is
driven by steps and solves that return. A solve that returns has ended it, and so have more requests
than the budget has steps. A run that is over stays as it is, with a code that tells why: success
and exhaustion of the budget of the residual, the others of the step that gave up, or failure of a
residual that is not finite. -/
theorem codes_tell_why_runs_end [LinearRoutines Float] {call : Call} {problem : Problem Float n}
    {c : Candidate} (hc : c.BuiltIn) {b e : Session Float n} (hb : c.Begins call problem b)
    {rs : List Session.Request} (h : Act.Served Session.serve
      (fun s r => (r = .step ∨ r = .solve) ∧ Act.Granted Session.serve s r) b rs e) :
    call.options = .ok e.options ∧
      (∀ r e', Session.solve.Returns e r e' →
        e'.iteration.terminated = true ∧ r = e'.snapshot ∧ c.Telling b e') ∧
      (e.options.budget < rs.length → e.iteration.terminated = true) ∧
      (e.iteration.terminated = true → e.iteration.stopped = true ∧ c.Telling b e ∧
        ∀ rs e', Act.Served Session.serve (fun _ r => r = .step ∨ r = .solve) e rs e' →
          e' = e) := by
  have hopens := hb.opens
  have hcourse : b.OnCourse e := h.keeps ⟨b.iteration, .refl _, rfl⟩ fun s r hs hr =>
    hs.serve hr.1 hr.2
  have howns : Candidate.Owns call c e := h.keeps hopens.toOwns fun s r hs _ =>
    Candidate.keeps_serve_owns r s hs
  refine ⟨howns.options, fun r e' hr => ?_, fun hlong => ?_, fun hover => ?_⟩
  · obtain ⟨ho, rfl⟩ := hr
    have hover := Session.driven_terminated ho
    have hsolved := hcourse.solve ho
    exact ⟨hover, Session.outcome_snapshot ho, (hopens.telling hc hsolved hover).2⟩
  · refine (Session.served_steps h).resolve_right fun hsteps => ?_
    have hle := hopens.steps_le hcourse
    rw [hsteps, hopens.steps] at hle
    omega
  · obtain ⟨hstopped, htelling⟩ := hopens.telling hc hcourse hover
    exact ⟨hstopped, htelling, fun rs e' hrs => Session.served_ended (fun _ _ hr => hr) hrs hover⟩

/-- A system without a root, on which a line search comes to a halt. -/
def rootless : Problem Float 1 :=
  ⟨.outOfPlace (fun u _ => .ok (u.map fun x => x * x + 1.0))
    (some fun u _ => .ok (u.map fun x => .replicate 1 (2.0 * x))), .replicate 1 0.5, .absent⟩

/-- Newton's method with a search along its steps. -/
def damped : Candidate := .newton (some Backtracking.initial) Settings.initial

theorem codes_tell_why_runs_end_rootless : ∃ b e : Session Float 1,
    damped.Begins .plain rootless b ∧
    Act.Served Session.serve (fun s r => (r = .step ∨ r = .solve) ∧ Act.Granted Session.serve s r) b
      [.step, .solve] e ∧
    e.iteration.code = .stalled ∧ b.Stayed 2 e ∧ (b.after 2).Fruitless := by
  have hrun : ((damped.init .plain rootless).run ()).result.toOption.map (fun b =>
      let s := ((Session.serve .step).run b).state
      let e := ((Session.serve .solve).run s).state
      (((Session.serve .step).run b).result.isOk, ((Session.serve .solve).run s).result.isOk,
        e.iteration.code, e.iteration.stats.nsteps, e.iteration.terminated)) =
      some (true, true, .stalled, 3, true) := by decide +kernel
  cases hb : ((damped.init .plain rootless).run ()).result with
  | error e => rw [hb] at hrun; cases hrun
  | ok b =>
    rw [hb] at hrun
    simp only [Except.toOption, Option.map_some, Option.some.injEq, Prod.mk.injEq] at hrun
    obtain ⟨h₁, h₂, hcode, hsteps, hover⟩ := hrun
    have hserved : Act.Served Session.serve
        (fun s r => (r = .step ∨ r = .solve) ∧ Act.Granted Session.serve s r) b [.step, .solve] _ :=
      .more ⟨.inl rfl, h₁⟩ (.more ⟨.inr rfl, h₂⟩ (.none _))
    obtain ⟨-, htelling, -⟩ :=
      (codes_tell_why_runs_end (c := damped) trivial (.init hb) hserved).2.2.2 hover
    rw [Candidate.Telling, hcode] at htelling
    obtain ⟨-, k, hstayed, hfruitless⟩ := htelling
    obtain rfl : k = 2 := by
      have hk := hstayed.steps
      omega
    exact ⟨b, _, .init hb, hserved, hcode, hstayed, hfruitless⟩

end Rootfinder
