import Rootfinder.Proofs.Endings

namespace Rootfinder

variable {α σ : Type} {n : Nat}

namespace Iteration

variable [Scalar α] {m : Method α n σ} {o : Options α} {it it' : Iteration α n σ}

/-- The residual norm is finite and within the tolerance. -/
def Converged (o : Options α) (it : Iteration α n σ) : Prop :=
  Scalar.isFinite (o.norm.of it.fu) = true ∧ o.norm.of it.fu ≤ o.tolerance

theorem Converged.of_fu (h : it.Converged o) (hfu : it.fu = it'.fu) : it'.Converged o := by
  rw [Converged, ← hfu]
  exact h

/-- The test lets no converged iterate pass. -/
theorem not_converged_of_running (h : (it.tested m).terminated = false) :
    ¬ it.Converged m.options := by
  rintro ⟨hfinite, hle⟩
  obtain ⟨-, hv, -⟩ := tested_eq_self h
  simp only [verdict, hfinite, hle, if_true, Bool.not_true, Bool.false_eq_true, if_false] at hv
  cases hv

/-- The test calls a converged iterate a success. -/
theorem verdict_of_converged (h : it.Converged o) {code : ReturnCode}
    (hv : it.verdict o = some code) : code = .success := by
  obtain ⟨-, hinfinite⟩ | ⟨-, ⟨hcode, -⟩ | ⟨-, hgreater, -⟩⟩ := verdict_cases hv
  · rw [h.1] at hinfinite
    cases hinfinite
  · exact hcode
  · exact absurd h.2 hgreater

end Iteration

open Iteration

/-- The residual norm of a session is finite and within its tolerance. -/
def Session.Converged [Scalar α] (s : Session α n) : Prop := s.iteration.Converged s.options

namespace Candidate

variable {call : Call} {problem : Problem Float n} {c : Candidate} {b e : Session Float n}

/-- A session that a step gave up on although it had moved: a trust region, unless under Bastin's
rule, was shrunk once more than it may be, or an estimate was to be reset once more than that. -/
inductive GaveUp (c : Candidate) (e : Session Float n) : Prop where
  | shrunk {scheme : TrustRegion.Scheme} {rule : RadiusRule} {configuration : Configuration}
    (hc : c = .trustRegion scheme rule configuration) (hscheme : scheme ≠ .bastin)
    (hcode : e.iteration.code = .shrinkThresholdExceeded)
    (hshrinks : ∀ k : Nat, rule.maxShrinkTimes.truncated = .ok (k : Int) →
      e.shrinks? = some (k + 1))
  | reset {limit : Nat} {configuration : Configuration}
    (hc : c = .klement limit configuration ∨ c = .broyden limit configuration)
    (hcode : e.iteration.code = .failure) (hresets : e.resets? = some (limit + 1))

variable [LinearRoutines Float]

/-- Of the steps that give up, only these have moved. -/
theorem Opens.gaveUp (h : Opens call c b) (hc : c.BuiltIn)
    {y x : Iteration Float n (b.algorithm.Memory n)} (hq : b.algorithm.Quits b.options y x)
    (hmoved : x.fu ≠ y.fu) : GaveUp c { b with iteration := x } := by
  obtain ⟨a, o, it⟩ := b
  obtain rfl := h.algorithm
  cases c with
  | newton search configuration => exact absurd hq.fu hmoved
  | trustRegion scheme rule configuration =>
    cases hq with
    | astray _ _ hfu => exact absurd hfu hmoved
    | @shrunk hcode j hj hs hstays =>
      -- Bastin's rule shrinks only where it has not moved.
      refine .shrunk rfl (fun hb => hmoved (hstays hb).2) hcode fun i hi => ?_
      have hji : j = i := by simpa [RadiusRule.params, hi, Except.toOption] using hj.symm
      rw [← hji]
      exact congrArg some hs
  | klement limit configuration => exact .reset (.inl rfl) hq.code (congrArg some hq.resets)
  | broyden limit configuration => exact .reset (.inr rfl) hq.code (congrArg some hq.resets)
  | replay script configuration => exact hc.elim

/-- A run that is over at a converged iterate is a success, or its last step gave up. -/
theorem Opens.converged (h : Opens call c b) (hc : c.BuiltIn) (he : b.OnCourse e)
    (hover : e.iteration.terminated = true) (hconverged : e.Converged) :
    e.iteration.code = .success ∨
      ∃ k : Nat, e.iteration.stats.nsteps = k + 1 ∧ ¬ (b.after k).Converged ∧ GaveUp c e := by
  obtain ⟨it, hcourse, rfl⟩ := he
  have hbuiltIn : b.algorithm.BuiltIn := h.algorithm ▸ hc
  have hcapped : b.algorithm.Capped := h.algorithm ▸ c.capped
  have hending : Ending b.method b.iteration (b.algorithm.Quits b.options) it :=
    hcourse.ending (fun y hy hs => Algorithm.wp_advance hbuiltIn hcapped b.options hy hs)
      Algorithm.quits_counted h.running h.steady hover
  cases hending with
  | judged hl hv =>
    rw [b.method_options] at hv
    exact .inl (verdict_of_converged (hconverged.of_fu rfl) hv)
  | @quit k y x hy ho hl hs hq =>
    refine .inr ⟨k, ?_, ?_, h.gaveUp hc hq fun hfu => ?_⟩
    · rw [lap_steps b.method_advance_at hl, hy.steps b.method_advance_at, h.steps, Int.zero_add]
    · rw [Session.after_of_laps hy ho, Session.Converged]
      have hn := not_converged_of_running ho
      rwa [b.method_options] at hn
    · have hn := not_converged_of_running ho
      rw [b.method_options] at hn
      exact hn (hconverged.of_fu hfu)

end Candidate

/-- Converged runs. A run of a candidate that was set to work or started over, driven by steps and
solves that return, and over at an iterate whose residual norm is finite and within the tolerance,
is a success; unless its last step came there from an iterate that is not, and gave up: a trust
region, but not under Bastin's rule, for it was shrunk too often in a row, or a secant method for
too many resets. -/
theorem converged_runs_succeed [LinearRoutines Float] {call : Call} {problem : Problem Float n}
    {c : Candidate} (hc : c.BuiltIn) {b e : Session Float n} (hb : c.Begins call problem b)
    {rs : List Session.Request} (h : Act.Served Session.serve
      (fun s r => (r = .step ∨ r = .solve) ∧ Act.Granted Session.serve s r) b rs e)
    (hover : e.iteration.terminated = true) (hconverged : e.Converged) :
    e.iteration.code = .success ∨
      ∃ k : Nat, e.iteration.stats.nsteps = k + 1 ∧ ¬ (b.after k).Converged ∧ c.GaveUp e := by
  have hcourse : b.OnCourse e := h.keeps ⟨b.iteration, .refl _, rfl⟩ fun s r hs hr =>
    hs.serve hr.1 hr.2
  exact hb.opens.converged hc hcourse hover hconverged

theorem converged_runs_succeed_parabola : ∃ b e : Session Float 1,
    (Candidate.newton none Settings.initial).Begins .plain parabola b ∧
    Act.Served Session.serve (fun s r => (r = .step ∨ r = .solve) ∧ Act.Granted Session.serve s r) b
      [.step, .solve] e ∧
    e.iteration.terminated = true ∧ e.Converged ∧ e.iteration.code = .success := by
  have hrun : (((Candidate.newton none Settings.initial).init .plain parabola).run
      ()).result.toOption.map (fun b =>
        let s := ((Session.serve .step).run b).state
        let e := ((Session.serve .solve).run s).state
        (((Session.serve .step).run b).result.isOk, ((Session.serve .solve).run s).result.isOk,
          e.iteration.terminated, Scalar.isFinite (e.residualNorm none),
          decide (e.residualNorm none ≤ e.options.tolerance))) =
      some (true, true, true, true, true) := by decide +kernel
  cases hb : (((Candidate.newton none Settings.initial).init .plain parabola).run ()).result with
  | error e => rw [hb] at hrun; cases hrun
  | ok b =>
    rw [hb] at hrun
    simp only [Except.toOption, Option.map_some, Option.some.injEq, Prod.mk.injEq,
      decide_eq_true_eq] at hrun
    obtain ⟨h₁, h₂, hover, hconverged⟩ := hrun
    have hserved : Act.Served Session.serve
        (fun s r => (r = .step ∨ r = .solve) ∧ Act.Granted Session.serve s r) b [.step, .solve] _ :=
      .more ⟨.inl rfl, h₁⟩ (.more ⟨.inr rfl, h₂⟩ (.none _))
    obtain hcode | ⟨k, -, -, hgave⟩ :=
      converged_runs_succeed (c := .newton none Settings.initial) trivial (.init hb) hserved hover
        hconverged
    · exact ⟨b, _, .init hb, hserved, hover, hconverged, hcode⟩
    · cases hgave with
      | shrunk hc => cases hc
      | reset hc => obtain hc | hc := hc <;> cases hc

/-- A cubic with a flat stretch on the way to its root. -/
def cubic : Problem Float 1 :=
  ⟨.outOfPlace (fun u _ => .ok (u.map fun x => x - x * (x * x) / 3.0))
    (some fun u _ => .ok (u.map fun x => .replicate 1 (1.0 - x * x))), .replicate 1 0.77, .absent⟩

/-- A trust region that may be shrunk once in a row. -/
def narrow : Candidate :=
  .trustRegion .nlsolve { RadiusRule.initial with maxShrinkTimes := .int 1 } Settings.initial

/-- A run that gives up at a converged iterate, the second that is accepted with a shrunk radius. -/
theorem shrunk_though_converged : ∃ b e : Session Float 1,
    narrow.Begins { Call.plain with tolerance := .num 0.55 } cubic b ∧
    Act.Served Session.serve (fun s r => (r = .step ∨ r = .solve) ∧ Act.Granted Session.serve s r) b
      [.solve] e ∧
    e.iteration.terminated = true ∧ e.Converged ∧
    e.iteration.code = .shrinkThresholdExceeded := by
  have hrun : ((narrow.init { Call.plain with tolerance := .num 0.55 } cubic).run
      ()).result.toOption.map (fun b =>
        let e := ((Session.serve .solve).run b).state
        (((Session.serve .solve).run b).result.isOk, e.iteration.terminated,
          Scalar.isFinite (e.residualNorm none),
          decide (e.residualNorm none ≤ e.options.tolerance), e.iteration.code)) =
      some (true, true, true, true, .shrinkThresholdExceeded) := by decide +kernel
  cases hb : ((narrow.init { Call.plain with tolerance := .num 0.55 } cubic).run ()).result with
  | error e => rw [hb] at hrun; cases hrun
  | ok b =>
    rw [hb] at hrun
    simp only [Except.toOption, Option.map_some, Option.some.injEq, Prod.mk.injEq,
      decide_eq_true_eq] at hrun
    obtain ⟨hok, hover, hfinite, hle, hcode⟩ := hrun
    exact ⟨b, _, .init hb, .more ⟨.inr rfl, hok⟩ (.none _), hover, ⟨hfinite, hle⟩, hcode⟩

end Rootfinder
