import Rootfinder.Proofs.Hooks

namespace Rootfinder

variable {α σ : Type} {n : Nat}

theorem Act.orderly_report_iteration (count : Int) (iterate : List α) (norm : α) :
    (report (.hook (.iteration count iterate norm)) : Act α σ Unit).Orderly :=
  fun _ => ⟨rfl, nofun⟩

open Act

variable [Scalar α]

/-- The step of every method reports in order. -/
theorem Algorithm.orderly_advance (a : Algorithm α) (o : Options α) :
    (a.method o n).advance.Orderly := by
  by_cases ha : a.BuiltIn
  · exact (Algorithm.modest_advance ha o).orderly
  · cases a with
    | replay script =>
      refine works_read.orderly.bind fun _ => Orderly.ite (works_pure _).orderly ?_
      refine (works_ofExcept _).orderly.bind fun _ => (works_update _).orderly.bind fun _ => ?_
      refine (works_ofExcept _).orderly.bind fun _ => (works_update _).orderly.bind fun _ => ?_
      split
      · exact Iteration.orderly_terminate _ _ _
      · exact (works_pure _).orderly
    | _ => exact absurd trivial ha

namespace Iteration

variable {m : Method α n σ} {b e it x : Iteration α n σ} {k : Nat}

theorem orderly_test : (checkTermination m).Orderly := by
  refine works_read.orderly.bind fun it => ?_
  split
  · exact orderly_terminate _ _ _
  · exact (works_pure _).orderly

section Reports

variable (hadvance : m.advance.Orderly)

include hadvance

theorem orderly_step : (step m).Orderly := by
  have hconclude : (conclude m).Orderly := by
    refine (works_update _).orderly.bind fun _ => works_read.orderly.bind fun _ => ?_
    refine Orderly.ite (works_pure _).orderly ?_
    exact (orderly_report_iteration _ _ _).bind fun _ => orderly_test
  refine works_read.orderly.bind fun _ => Orderly.ite (works_pure _).orderly ?_
  refine orderly_test.bind fun _ => works_read.orderly.bind fun _ => ?_
  exact Orderly.ite (works_pure _).orderly (hadvance.bind fun _ => hconclude)

theorem orderly_drive (fuel : Nat) : (drive m fuel).Orderly := by
  induction fuel with
  | zero => exact (works_pure _).orderly
  | succ fuel ih =>
    refine works_read.orderly.bind fun _ => Orderly.ite (works_pure _).orderly ?_
    exact (orderly_step hadvance).bind fun _ => ih

theorem orderly_solve : (solve m).Orderly :=
  works_read.orderly.bind fun _ => (orderly_drive hadvance _).bind fun _ =>
    works_read.orderly.bind fun _ => (works_pure _).orderly

end Reports

omit [Scalar α] in
theorem lap_endsInside (h : (lap m).Returns it () x) :
    it.EndsInside m ↔ x.terminated = true := by
  obtain ⟨hr, rfl⟩ := h
  rcases ha : m.advance.run it with ⟨r, it', t⟩
  cases r with
  | error e =>
    rw [lap, run_bind_error ha] at hr
    cases hr
  | ok u =>
    rw [lap, run_bind_ok ha, EndsInside, ha]
    rfl

/-- The steps of a run that is not over did not end it. -/
theorem Laps.survived (h : Laps m k b x) (hx : x.terminated = false) :
    ∀ j < k, ¬ (Iteration.after m j b).EndsInside m := by
  induction k generalizing x with
  | zero => exact fun j hj => absurd hj (Nat.not_lt_zero j)
  | succ k ih =>
    obtain ⟨y, hy, ho, hl⟩ := h.last
    refine Nat.forall_lt_succ_right.mpr ⟨ih hy (tested_eq_self ho).1, ?_⟩
    rw [hy.after_eq ho, lap_endsInside hl, hx]
    exact Bool.false_ne_true

/-- A run that is over was ended by the test, or inside its last step. -/
theorem OnCourse.ended (h : OnCourse m b e) (hrun : b.terminated = false)
    (hover : e.terminated = true) :
    (∃ k x code, Laps m k b x ∧ x.verdict m.options = some code ∧ e = x.ended code ∧
      ∀ j < k, ¬ (Iteration.after m j b).EndsInside m) ∨
    ∃ k y, Laps m k b y ∧ (y.tested m).terminated = false ∧ (lap m).Returns y () e ∧
      (Iteration.after m k b).EndsInside m := by
  obtain ⟨k, x, hx, ht⟩ := h
  rw [tested_of_terminated hover] at ht
  cases hxt : x.terminated with
  | false =>
    obtain htested | ⟨-, code, hv, htested⟩ := tested_cases (m := m) x
    · rw [ht, htested, hxt] at hover
      cases hover
    · exact .inl ⟨k, x, code, hx, hv, ht.trans htested, hx.survived hxt⟩
  | true =>
    obtain rfl : e = x := ht.trans (tested_of_terminated hxt)
    cases k with
    | zero =>
      cases hx
      rw [hrun] at hxt
      cases hxt
    | succ k =>
      obtain ⟨y, hy, ho, hl⟩ := hx.last
      refine .inr ⟨k, y, hy, ho, hl, ?_⟩
      rw [hy.after_eq ho]
      exact (lap_endsInside hl).mpr hxt

end Iteration

/-- The codes with which steps end runs. -/
theorem Algorithm.quits_code {a : Algorithm α} (ha : a.BuiltIn) {o : Options α}
    {y x : Iteration α n (a.Memory n)} (h : a.Quits o y x) :
    x.code = .failure ∨ x.code = .stalled ∨ x.code = .shrinkThresholdExceeded := by
  cases a with
  | newton search l => exact h.reason.imp And.left fun hs => .inl hs.1
  | trustRegion scheme prm l =>
    cases h with
    | astray hc => exact .inl hc
    | shrunk hc => exact .inr (.inr hc)
  | klement limit => exact .inl h.code
  | broyden limit => exact .inl h.code
  | replay script => exact ha.elim

namespace Candidate

open Iteration

variable {call : Call} {c : Candidate} {b e : Session Float n}

/-- Where a run ended can be told from its code, unless that is failure. -/
theorem Opens.place [LinearRoutines Float] (h : Opens call c b) (hc : c.BuiltIn) (he : b.OnCourse e)
    (hover : e.iteration.terminated = true) :
    (∃ k : ℕ, e.iteration.stats.nsteps = k ∧ (∀ j < k, ¬ (b.after j).EndsInside) ∧
      e.iteration.code ≠ .stalled ∧ e.iteration.code ≠ .shrinkThresholdExceeded) ∨
    ∃ k : ℕ, e.iteration.stats.nsteps = k + 1 ∧ (b.after k).EndsInside ∧
      e.iteration.code ≠ .success ∧ e.iteration.code ≠ .maxIters := by
  obtain ⟨it, hcourse, rfl⟩ := he
  have hbuiltIn : b.algorithm.BuiltIn := h.algorithm ▸ hc
  have hcapped : b.algorithm.Capped := h.algorithm ▸ c.capped
  have hadvance : ∀ y : Iteration Float n (b.algorithm.Memory n), y.terminated = false →
      b.algorithm.Steady y.memory → b.method.advance.wp (fun _ => Onward b.algorithm.Steady
        (b.algorithm.Quits b.options y)) (fun _ _ => True) y :=
    fun y hy hs => Algorithm.wp_advance hbuiltIn hcapped b.options hy hs
  obtain ⟨k, x, code, hx, hv, rfl, hsurvived⟩ | ⟨k, y, hy, ho, hl, hinside⟩ :=
    hcourse.ended h.running hover
  · refine .inl ⟨k, ?_, fun j hj => (Session.endsInside_after b j).not.mpr (hsurvived j hj), ?_⟩
    · exact (hx.steps b.method_advance_at).trans (by rw [h.steps, Int.zero_add])
    · obtain ⟨rfl, -⟩ | ⟨-, ⟨rfl, -⟩ | ⟨rfl, -⟩⟩ := verdict_cases hv <;> exact ⟨nofun, nofun⟩
  · refine .inr ⟨k, ?_, (Session.endsInside_after b k).mpr hinside, ?_⟩
    · exact (lap_steps b.method_advance_at hl).trans
        (by rw [hy.steps b.method_advance_at, h.steps, Int.zero_add])
    · have hrun := (tested_eq_self ho).1
      have hsteady := hy.steady hadvance Algorithm.quits_counted h.steady hrun
      obtain ⟨hit, -⟩ | ⟨-, hq⟩ := lap_onward hadvance Algorithm.quits_counted hrun hsteady hl
      · exact absurd (hit.symm.trans hover) Bool.false_ne_true
      · have hcode := Algorithm.quits_code hbuiltIn hq
        constructor <;> intro hc <;> simp_all

end Candidate

namespace Session

variable {b s e : Session Float n}

theorem orderly_step : (step : Act α (Session α n) Unit).Orderly := fun s =>
  Iteration.orderly_step (s.algorithm.orderly_advance s.options) s.iteration

theorem orderly_solve : (solve : Act α (Session α n) (Run α n)).Orderly := fun s =>
  Iteration.orderly_solve (s.algorithm.orderly_advance s.options) s.iteration

theorem orderly_serve {r : Request} (hr : r = .step ∨ r = .solve) :
    (serve r : Act Float (Session Float n) _).Orderly := by
  obtain rfl | rfl := hr
  · intro s
    rw [run_serve_step]
    exact orderly_step s
  · intro s
    rw [run_serve_solve]
    exact orderly_solve s

/-- What is reported while requests are served one after the other. -/
def reports (s : Session Float n) (rs : List Request) : List (Event Float) :=
  (Act.transcript serve s rs).flatMap Outcome.trace

theorem hooks_reports (s : Session Float n) (rs : List Request) :
    Event.hooks (s.reports rs) = s.calls rs :=
  List.filterMap_flatMap

theorem orderly_reports {allowed : Session Float n → Request → Prop}
    (ha : ∀ s r, allowed s r → r = .step ∨ r = .solve) {rs : List Request}
    (h : Act.Served Session.serve allowed s rs e) : Event.Orderly (s.reports rs) := by
  induction h with
  | none => exact Event.orderly_nil
  | more hr _ ih => exact (orderly_serve (ha _ _ hr) _).append ih

end Session

namespace Event

/-- The counts of steps that the log gives for ends of runs. -/
def loggedCounts (t : List (Event α)) : List Int := (notes t).filterMap Note.finalCount?

/-- The counts of steps that hooks are told for ends of runs. -/
def toldCounts (t : List (Event α)) : List Int := (hooks t).filterMap Hook.finalCount?

end Event

namespace Session

variable {b e : Session Float n} {m k : ℕ} {hs : List (Hook Float)}

/-- The hooks of a run that is over are told one count, that of the steps announced before. -/
theorem Tells.finalCounts (h : b.Tells e m hs) (hover : e.iteration.terminated = true) :
    hs.filterMap Hook.finalCount? = [(m : ℤ)] := by
  have hannounced : (b.announced m).filterMap Hook.finalCount? = [] := by
    rw [announced, List.filterMap_map, List.filterMap_eq_nil_iff]
    exact fun _ _ => rfl
  have hclosing : (e.closing m).finalCount? = some (m : ℤ) := by
    unfold closing
    split <;> rfl
  rw [h.calls, if_pos hover, List.filterMap_append, hannounced, List.nil_append,
    List.filterMap_cons_some hclosing, List.filterMap_nil]

/-- The count is that of the steps that the run survived. -/
theorem Tells.survived (h : b.Tells e m hs) (hsteps : e.iteration.stats.nsteps = k)
    (hk : ∀ j < k, ¬ (b.after j).EndsInside) : m = k := by
  obtain hm | ⟨-, hm⟩ := h.steps
  · omega
  · exact absurd ((h.inside m (by omega)).mpr rfl) (hk m (by omega))

theorem Tells.inside_last (h : b.Tells e m hs) (hsteps : e.iteration.stats.nsteps = k + 1)
    (hk : (b.after k).EndsInside) : m = k :=
  ((h.inside k (by omega)).mp hk).symm

end Session

/-- The counts at the end of a run of a candidate. While it is driven to its end by steps and solves
that return, its end is logged once and told to a hook once, with the same count of steps. The
statistics of the run show that count, unless the run was ended inside its last step: then they
show one more. A run that met the tolerance or used up its budget was not ended inside a step; one
that stalled or gave up shrinking was. -/
theorem counts_at_the_end [LinearRoutines Float] {call : Call} {problem : Problem Float n}
    {c : Candidate} (hc : c.BuiltIn) {b e e' : Session Float n} (hb : c.Begins call problem b)
    {rs : List Session.Request} (h : Act.Served Session.serve
      (fun s r => (r = .step ∨ r = .solve) ∧ Act.Granted Session.serve s r) b rs e)
    {r : Run Float n} (hr : Session.solve.Returns e r e') :
    let t := b.reports rs ++ (Session.solve.run e).trace
    ∃ k : ℕ, Event.loggedCounts t = [(k : ℤ)] ∧ Event.toldCounts t = [(k : ℤ)] ∧
      (r.stats.nsteps = k ∧ (∀ j < k, ¬ (b.after j).EndsInside) ∧
          r.code ≠ .stalled ∧ r.code ≠ .shrinkThresholdExceeded ∨
        r.stats.nsteps = k + 1 ∧ (b.after k).EndsInside ∧
          r.code ≠ .success ∧ r.code ≠ .maxIters) := by
  intro t
  have hopens := hb.opens
  have hbuiltIn : b.algorithm.BuiltIn := hopens.algorithm ▸ hc
  obtain ⟨ho, rfl⟩ := hr
  have hover := Session.driven_terminated ho
  have horderly : Event.Orderly t :=
    (Session.orderly_reports (fun _ _ hr => hr.1) h).append (Session.orderly_solve e)
  obtain ⟨m, htells⟩ : ∃ m, b.Tells e.driven m (Event.hooks t) := by
    have hbegin : b.Told b [] := ⟨b.iteration, rfl, .going (k := 0) hopens.running hopens.steps
      fun j hj => absurd hj (Nat.not_lt_zero j)⟩
    have hgranted : Act.Granted Session.serve e .solve := by
      have hresult : (Session.solve.run e).result = .ok r := ho
      rw [Act.Granted, Session.run_serve_solve, hresult]
      rfl
    have hsolved := (hbegin.served hbuiltIn h).serve hbuiltIn (.inr rfl) hgranted
    rw [Session.run_serve_solve] at hsolved
    rw [Event.hooks_append, Session.hooks_reports]
    exact hsolved.tells
  have hcounts := htells.finalCounts hover
  have hcourse : b.OnCourse e := h.keeps ⟨b.iteration, .refl _, rfl⟩ fun s r hs hr =>
    hs.serve hr.1 hr.2
  rw [Session.outcome_snapshot ho]
  obtain ⟨k, hk, hsurvived, hcode⟩ | ⟨k, hk, hinside, hcode⟩ :=
    hopens.place hc (hcourse.solve ho) hover
  · obtain rfl := htells.survived hk hsurvived
    exact ⟨m, horderly.counts.trans hcounts, hcounts, .inl ⟨hk, hsurvived, hcode⟩⟩
  · obtain rfl := htells.inside_last hk hinside
    exact ⟨m, horderly.counts.trans hcounts, hcounts, .inr ⟨hk, hinside, hcode⟩⟩

theorem counts_at_the_end_rootless : ∃ (b e e' : Session Float 1) (r : Run Float 1),
    damped.Begins .plain rootless b ∧
    Act.Served Session.serve (fun s r => (r = .step ∨ r = .solve) ∧ Act.Granted Session.serve s r) b
      [.step] e ∧ Session.solve.Returns e r e' ∧ r.code = .stalled ∧ r.stats.nsteps = 3 ∧
    Event.loggedCounts (b.reports [.step] ++ (Session.solve.run e).trace) = [2] ∧
    Event.toldCounts (b.reports [.step] ++ (Session.solve.run e).trace) = [2] := by
  have hrun : ((damped.init .plain rootless).run ()).result.toOption.map (fun b =>
      let e := ((Session.serve .step).run b).state
      (((Session.serve .step).run b).result.isOk, (Session.solve.run e).result.toOption.map
        fun r => (r.code, r.stats.nsteps))) = some (true, some (.stalled, 3)) := by
    decide +kernel
  cases hb : ((damped.init .plain rootless).run ()).result with
  | error e => rw [hb] at hrun; cases hrun
  | ok b =>
    rw [hb] at hrun
    simp only [Except.toOption, Option.map_some, Option.some.injEq, Prod.mk.injEq] at hrun
    obtain ⟨hstep, hsolve⟩ := hrun
    cases hr : (Session.solve.run ((Session.serve .step).run b).state).result with
    | error e => rw [hr] at hsolve; cases hsolve
    | ok r =>
      rw [hr] at hsolve
      simp only [Option.map_some, Option.some.injEq, Prod.mk.injEq] at hsolve
      obtain ⟨hcode, hsteps⟩ := hsolve
      have hserved : Act.Served Session.serve (fun s r => (r = .step ∨ r = .solve) ∧
          Act.Granted Session.serve s r) b [.step] ((Session.serve .step).run b).state :=
        .more ⟨.inl rfl, hstep⟩ (.none _)
      obtain ⟨k, hlogged, htold, ⟨-, -, hne, -⟩ | ⟨hk, -⟩⟩ :=
        counts_at_the_end (c := damped) trivial (.init hb) hserved ⟨hr, rfl⟩
      · exact absurd hcode hne
      · obtain rfl : k = 2 := by omega
        exact ⟨b, _, _, r, .init hb, hserved, ⟨hr, rfl⟩, hcode, hsteps, hlogged, htold⟩

/-- The end of a run whose first Newton step cannot be solved for is reported after no step at all,
while the statistics count that step. -/
theorem count_falls_short :
    let c : Candidate := .newton none Settings.initial
    let summit : Problem Float 1 := { rootless with start := .replicate 1 0.0 }
    ((c.init .plain summit).run ()).result.toOption.map (fun b =>
        let o := Session.solve.run b
        (Event.loggedCounts o.trace, Event.toldCounts o.trace,
          o.result.toOption.map fun r => (r.code, r.stats.nsteps))) =
      some ([0], [0], some (.failure, 1)) := by
  decide +kernel

end Rootfinder
