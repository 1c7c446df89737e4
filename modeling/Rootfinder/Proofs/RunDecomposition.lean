import Rootfinder.Proofs.Sessions

namespace Rootfinder.Iteration

variable {α σ : Type} [Scalar α] {n : Nat}

/-- A run that was ended with a code. -/
def ended (it : Iteration α n σ) (code : ReturnCode) : Iteration α n σ :=
  { it with code := code, stopped := true }

variable (m : Method α n σ)

/-- What the test before and after every step makes of a state. -/
def tested (it : Iteration α n σ) : Iteration α n σ :=
  if it.terminated then it else ((it.verdict m.options).map it.ended).getD it

/-- A step of the method, counted but not tested. -/
def lap : Act α (Iteration α n σ) Unit := do
  m.advance
  Act.update fun it => { it with stats := it.stats.countStep }

/-- A number of laps, each from a state that the test lets pass. -/
inductive Laps : Nat → Iteration α n σ → Iteration α n σ → Prop where
  | none (it : Iteration α n σ) : Laps 0 it it
  | more {k : Nat} {it it' it'' : Iteration α n σ} (ho : (it.tested m).terminated = false)
    (hl : (lap m).Returns it () it') (h : Laps k it' it'') : Laps (k + 1) it it''

/-- The state after a number of steps, whether they return or not. -/
def after : Nat → Iteration α n σ → Iteration α n σ
  | 0, it => it
  | k + 1, it => after k ((step m).run it).state

variable {m} {it it' : Iteration α n σ}

omit [Scalar α] in
@[simp]
theorem ended_terminated (it : Iteration α n σ) (code : ReturnCode) :
    (it.ended code).terminated = true := rfl

theorem tested_of_terminated (h : it.terminated = true) : it.tested m = it := if_pos h

theorem tested_of_verdict (h : it.terminated = false) {code : ReturnCode}
    (hv : it.verdict m.options = some code) : it.tested m = it.ended code := by
  rw [tested, if_neg (by simp [h]), hv]
  rfl

/-- A state that the test lets pass is as it was. -/
theorem tested_eq_self (h : (it.tested m).terminated = false) :
    it.terminated = false ∧ it.verdict m.options = none ∧ it.tested m = it := by
  have ht : it.terminated = false := by
    cases ht : it.terminated with
    | true => rw [tested_of_terminated ht, ht] at h; cases h
    | false => rfl
  cases hv : it.verdict m.options with
  | some code =>
    rw [tested_of_verdict ht hv] at h
    cases h
  | none =>
    refine ⟨ht, rfl, ?_⟩
    rw [tested, if_neg (by simp [ht]), hv]
    rfl

@[simp]
theorem tested_tested (it : Iteration α n σ) : (it.tested m).tested m = it.tested m := by
  cases h : (it.tested m).terminated with
  | true => exact tested_of_terminated h
  | false => rw [(tested_eq_self h).2.2, (tested_eq_self h).2.2]

/-- The test ends a run or leaves it, and changes nothing else. -/
theorem tested_cases (it : Iteration α n σ) : it.tested m = it ∨
    it.terminated = false ∧ ∃ code, it.verdict m.options = some code ∧
      it.tested m = it.ended code := by
  cases ht : it.terminated with
  | true => exact .inl (tested_of_terminated ht)
  | false =>
    cases hv : it.verdict m.options with
    | some code => exact .inr ⟨rfl, code, rfl, tested_of_verdict ht hv⟩
    | none =>
      rw [tested, if_neg (by simp [ht]), hv]
      exact .inl rfl

@[simp]
theorem tested_u (it : Iteration α n σ) : (it.tested m).u = it.u := by
  obtain h | ⟨-, code, -, h⟩ := tested_cases (m := m) it <;> rw [h]
  rfl

@[simp]
theorem tested_fu (it : Iteration α n σ) : (it.tested m).fu = it.fu := by
  obtain h | ⟨-, code, -, h⟩ := tested_cases (m := m) it <;> rw [h]
  rfl

@[simp]
theorem tested_stats (it : Iteration α n σ) : (it.tested m).stats = it.stats := by
  obtain h | ⟨-, code, -, h⟩ := tested_cases (m := m) it <;> rw [h]
  rfl

@[simp]
theorem tested_problem (it : Iteration α n σ) : (it.tested m).problem = it.problem := by
  obtain h | ⟨-, code, -, h⟩ := tested_cases (m := m) it <;> rw [h]
  rfl

@[simp]
theorem tested_memory (it : Iteration α n σ) : (it.tested m).memory = it.memory := by
  obtain h | ⟨-, code, -, h⟩ := tested_cases (m := m) it <;> rw [h]
  rfl

/-- A state that passes the test has steps left. -/
theorem steps_lt_budget (h : (it.tested m).terminated = false) :
    it.stats.nsteps < m.options.budget := by
  obtain ⟨-, hv, -⟩ := tested_eq_self h
  simp only [verdict] at hv
  split at hv
  · cases hv
  · split at hv
    · cases hv
    · split at hv
      · cases hv
      · omega

section Rules

variable {post : Unit → Iteration α n σ → Prop} {broken : Fault α → Iteration α n σ → Prop}

theorem wp_test (h : it.terminated = false) :
    (checkTermination m).wp post broken it ↔ post () (it.tested m) := by
  rw [checkTermination, Act.wp_bind, Act.wp_read]
  cases hv : it.verdict m.options with
  | some code =>
    rw [tested_of_verdict h hv]
    exact wp_terminate _ _ _
  | none =>
    rw [tested, if_neg (by simp [h]), hv]
    exact Act.wp_pure _

theorem wp_conclude_tested : (conclude m).wp post broken it ↔
    post () (tested m { it with stats := it.stats.countStep }) := by
  rw [conclude, Act.wp_bind, Act.wp_update, Act.wp_bind, Act.wp_read]
  split
  · rename_i h
    rw [tested_of_terminated h, Act.wp_pure]
  · rename_i h
    rw [Act.wp_bind, Act.wp_report, wp_test (by simpa using h)]

/-- A step that is not ended by the test is a lap with a test behind it. -/
theorem wp_step_tested : (step m).wp post broken it ↔
    if (it.tested m).terminated then post () (it.tested m)
    else (lap m).wp (fun _ it' => post () (it'.tested m)) broken it := by
  rw [step, Act.wp_bind, Act.wp_read]
  cases ht : it.terminated with
  | true => simp [tested_of_terminated, ht]
  | false =>
    simp only [Bool.false_eq_true, if_false, Act.wp_bind, wp_test ht, Act.wp_read]
    cases h : (it.tested m).terminated with
    | true => rfl
    | false =>
      rw [(tested_eq_self h).2.2, if_neg Bool.false_ne_true, if_neg Bool.false_ne_true, lap,
        Act.wp_bind, Act.wp_bind]
      exact Act.wp_congr _ fun _ _ => wp_conclude_tested

end Rules

section Solves

theorem drive_of_terminated (h : it.terminated = true) (fuel : Nat) :
    (drive m fuel).run it = ⟨.ok (), it, []⟩ := by
  cases fuel with
  | zero => rfl
  | succ fuel =>
    rw [drive, Act.run_read_bind, if_pos h]
    rfl

theorem run_solve (it : Iteration α n σ) : (solve m).run it =
    (drive m (it.stepsLeft m) >>= fun _ => Act.read >>= fun it => pure (it.toRun m)).run it := rfl

theorem solve_of_terminated (h : it.terminated = true) :
    (solve m).run it = ⟨.ok (it.toRun m), it, []⟩ := by
  rw [run_solve, Act.run_bind_ok (drive_of_terminated h _)]
  rfl

variable (hm : ∀ P k, m.advance.Keeps (At P k))

include hm

/-- A solve that has not ended is a step and then a solve. -/
theorem solve_of_running (h : it.terminated = false) :
    (solve m).run it = (step m >>= fun _ => solve m).run it := by
  have hd : (drive m (it.stepsLeft m)).run it = (step m >>= fun _ =>
      drive m (m.options.budget - it.stats.nsteps).toNat).run it := by
    rw [stepsLeft, drive, Act.run_read_bind, if_neg (by simp [h])]
  rw [run_solve, Act.run_bind, hd, ← Act.run_bind, bind_assoc]
  apply Act.run_bind_congr
  intro _ hr
  have hs := Act.wp.of_ok (wp_step hm) hr
  rcases hs.2 with ht | ⟨hk, hb⟩
  · rw [solve_of_terminated ht, Act.run_bind_ok (drive_of_terminated ht _)]
    rfl
  · have hleft : (m.options.budget - it.stats.nsteps).toNat =
        ((step m).run it).state.stepsLeft m := by
      rw [stepsLeft, hk]
      omega
    rw [hleft, run_solve]

variable {post : Run α n → Iteration α n σ → Prop} {broken : Fault α → Iteration α n σ → Prop}

theorem wp_solve_step (h : it.terminated = false) : (solve m).wp post broken it ↔
    (step m).wp (fun _ => (solve m).wp post broken) broken it := by
  rw [← Act.wp_bind]
  simp only [Act.wp, solve_of_running hm h]

/-- A test before a solve makes no difference to it. -/
theorem wp_solve_tested : (solve m).wp post broken (it.tested m) ↔
    (solve m).wp post broken it := by
  obtain h | ⟨ht, code, hv, h⟩ := tested_cases (m := m) it
  · rw [h]
  · rw [wp_solve_step hm ht, wp_step_tested, h, if_pos (ended_terminated it code)]

/-- A solve goes on with laps up to the first state that the test does not let pass. -/
theorem wp_solve : (solve m).wp post broken it ↔
    if (it.tested m).terminated then post ((it.tested m).toRun m) (it.tested m)
    else (lap m).wp (fun _ => (solve m).wp post broken) broken it := by
  cases h : (it.tested m).terminated with
  | true =>
    rw [← wp_solve_tested hm, if_pos rfl]
    simp only [Act.wp, solve_of_terminated h]
  | false =>
    rw [if_neg (by simp), wp_solve_step hm (tested_eq_self h).1, wp_step_tested,
      if_neg (by simp [h])]
    exact Act.wp_congr _ fun _ _ => wp_solve_tested hm

omit [Scalar α] in
/-- A lap counts itself once and stays with its problem. -/
theorem wp_lap : (lap m).wp (fun _ it' => it'.problem = it.problem ∧
    it'.stats.nsteps = it.stats.nsteps + 1) (fun _ _ => True) it := by
  have hat : At it.problem it.stats.nsteps it := ⟨rfl, rfl⟩
  rw [lap, Act.wp_bind]
  refine ((hm _ _).wp hat).mono (fun _ it' h => ?_) fun _ _ _ => trivial
  exact ⟨h.problem, congrArg (· + 1) h.steps⟩

omit [Scalar α] in
theorem lap_steps (h : (lap m).Returns it () it') :
    it'.stats.nsteps = it.stats.nsteps + 1 := by
  have hw := Act.wp.of_ok (wp_lap hm) h.1
  rw [h.2] at hw
  exact hw.2

/-- Laps come to an end, because each takes a step off the budget. -/
theorem lap_induction {P : Iteration α n σ → Prop}
    (ends : ∀ it, (it.tested m).terminated = true → P it)
    (goes : ∀ it, (it.tested m).terminated = false →
      (∀ it', (lap m).Returns it () it' → P it') → P it) (it : Iteration α n σ) : P it := by
  generalize hk : (m.options.budget - it.stats.nsteps).toNat = k
  induction k using Nat.strongRecOn generalizing it with
  | ind k ih =>
    cases h : (it.tested m).terminated with
    | true => exact ends it h
    | false =>
      refine goes it h fun it' hl => ?_
      have hb := steps_lt_budget h
      have hs := lap_steps hm hl
      exact ih _ (by omega) it' rfl

end Solves

section Courses

variable {k j : Nat} {e x y : Iteration α n σ}

theorem returns_step_ended (h : (it.tested m).terminated = true) :
    (step m).Returns it () (it.tested m) := by
  apply Act.returns_of_wp
  rw [wp_step_tested, if_pos h]
  exact ⟨rfl, rfl⟩

theorem returns_step_lap (h : (it.tested m).terminated = false)
    (hl : (lap m).Returns it () it') : (step m).Returns it () (it'.tested m) := by
  apply Act.returns_of_wp
  rw [wp_step_tested, if_neg (by simp [h]), hl.wp_iff]
  exact ⟨rfl, rfl⟩

/-- A step that returns is ended by the test or is a lap. -/
theorem step_cases (h : (step m).Returns it () e) :
    (it.tested m).terminated = true ∧ e = it.tested m ∨
    (it.tested m).terminated = false ∧ ∃ it', (lap m).Returns it () it' ∧ e = it'.tested m := by
  cases ht : (it.tested m).terminated with
  | true => exact .inl ⟨rfl, h.2.symm.trans (returns_step_ended ht).2⟩
  | false =>
    have hw : (step m).wp (fun _ e => ∃ it', (lap m).Returns it () it' ∧ e = it'.tested m)
        (fun _ _ => True) it := by
      rw [wp_step_tested, if_neg (by simp [ht])]
      exact (Act.wp_self _ _).mono (fun _ it' hl => ⟨it', hl, rfl⟩) fun _ _ _ => trivial
    have he := hw.of_ok h.1
    rw [h.2] at he
    exact .inr ⟨rfl, he⟩

theorem Laps.append (h : Laps m k it x) (h' : Laps m j x y) : Laps m (k + j) it y := by
  induction h with
  | none it => rwa [Nat.zero_add]
  | more ho hl _ ih =>
    rw [Nat.add_right_comm]
    exact .more ho hl (ih h')

/-- The last of some laps. -/
theorem Laps.last (h : Laps m (k + 1) it x) : ∃ y, Laps m k it y ∧
    (y.tested m).terminated = false ∧ (lap m).Returns y () x := by
  generalize hj : k + 1 = j at h
  induction h generalizing k with
  | none it => cases hj
  | @more k' it it' x ho hl h ih =>
    obtain rfl : k = k' := Nat.succ.inj hj
    cases k with
    | zero =>
      cases h
      exact ⟨it, .none it, ho, hl⟩
    | succ k =>
      obtain ⟨y, hy, hyo, hyl⟩ := ih rfl
      exact ⟨y, .more ho hl hy, hyo, hyl⟩

def OnCourse (m : Method α n σ) (it e : Iteration α n σ) : Prop :=
  ∃ k x, Laps m k it x ∧ e.tested m = x.tested m

theorem OnCourse.refl (it : Iteration α n σ) : OnCourse m it it := ⟨0, it, .none it, rfl⟩

/-- Laps from a state on the course are laps of the course, unless the state has ended. -/
theorem OnCourse.laps (h : OnCourse m it e) (hl : Laps m j e y) : OnCourse m it (y.tested m) := by
  obtain ⟨k, x, hx, he⟩ := h
  cases hl with
  | none => exact ⟨k, x, hx, by rw [tested_tested, he]⟩
  | more ho hl hy =>
    have hxo : (x.tested m).terminated = false := he ▸ ho
    obtain rfl : e = x := by
      rw [← (tested_eq_self ho).2.2, he, (tested_eq_self hxo).2.2]
    exact ⟨_, y, hx.append (.more ho hl hy), tested_tested y⟩

theorem OnCourse.step (h : OnCourse m it e) (hs : (step m).Returns e () e') :
    OnCourse m it e' := by
  obtain ⟨-, rfl⟩ | ⟨ho, y, hl, rfl⟩ := step_cases hs
  · exact h.laps (.none e)
  · exact h.laps (.more ho hl (.none y))

variable (hm : ∀ P k, m.advance.Keeps (At P k))

include hm

theorem Laps.steps (h : Laps m k it x) : x.stats.nsteps = it.stats.nsteps + k := by
  induction h with
  | none => simp
  | more _ hl _ ih =>
    rw [ih, lap_steps hm hl]
    omega

/-- No lap goes beyond the budget. -/
theorem Laps.steps_le (h : Laps m k it x) (hb : it.stats.nsteps ≤ m.options.budget) :
    x.stats.nsteps ≤ m.options.budget := by
  induction h with
  | none => exact hb
  | more ho hl _ ih =>
    have hlt := steps_lt_budget ho
    exact ih (by rw [lap_steps hm hl]; omega)

/-- Laps up to a state that the test does not let pass make a solve. -/
theorem Laps.returns_solve (h : Laps m k it x) (hx : (x.tested m).terminated = true) :
    (solve m).Returns it ((x.tested m).toRun m) (x.tested m) := by
  apply Act.returns_of_wp
  induction h with
  | none it =>
    rw [wp_solve hm, if_pos hx]
    exact ⟨rfl, rfl⟩
  | more ho hl _ ih =>
    rw [wp_solve hm, if_neg (by simp [ho]), hl.wp_iff]
    exact ih hx

/-- A solve that returns has made laps up to a state that the test does not let pass. -/
theorem laps_of_returns {r : Run α n} (h : (solve m).Returns it r e) :
    ∃ k x, Laps m k it x ∧ (x.tested m).terminated = true ∧ e = x.tested m ∧ r = e.toRun m := by
  revert h
  induction it using lap_induction hm generalizing r e with
  | ends it ht =>
    intro h
    have hs := (Laps.none it).returns_solve hm ht
    obtain rfl := h.2.symm.trans hs.2
    obtain rfl := Except.ok.inj (h.1.symm.trans hs.1)
    exact ⟨0, it, .none it, ht, rfl, rfl⟩
  | goes it ho ih =>
    intro h
    have hw : (solve m).wp (fun r e => ∃ k x, Laps m k it x ∧ (x.tested m).terminated = true ∧
        e = x.tested m ∧ r = e.toRun m) (fun _ _ => True) it := by
      rw [wp_solve hm, if_neg (by simp [ho])]
      refine (Act.wp_self _ _).mono (fun _ it' hl => ?_) fun _ _ _ => trivial
      refine (Act.wp_self _ _).mono (fun r e hs => ?_) fun _ _ _ => trivial
      obtain ⟨k, x, hx, hrest⟩ := ih it' hl hs
      exact ⟨k + 1, x, .more ho hl hx, hrest⟩
    have he := hw.of_ok h.1
    rwa [h.2] at he

theorem OnCourse.solve (h : OnCourse m it e) {r : Run α n} (hs : (solve m).Returns e r e') :
    OnCourse m it e' := by
  obtain ⟨j, y, hy, -, rfl, -⟩ := laps_of_returns hm hs
  exact h.laps hy

omit hm in
/-- After as many steps as laps, the states differ by the test at most. -/
theorem Laps.after (h : Laps m k it x) : (after m k it).tested m = x.tested m := by
  have hstep : ∀ z : Iteration α n σ,
      ((Iteration.step m).run (z.tested m)).state = ((Iteration.step m).run z).state := by
    intro z
    cases hz : (z.tested m).terminated with
    | true =>
      have hz' : ((z.tested m).tested m).terminated = true := by rwa [tested_tested]
      rw [(returns_step_ended hz').2, (returns_step_ended hz).2, tested_tested]
    | false => rw [(tested_eq_self hz).2.2]
  have hafter : ∀ (k : Nat) (z : Iteration α n σ),
      (Iteration.after m k (z.tested m)).tested m = (Iteration.after m k z).tested m := by
    intro k z
    cases k with
    | zero => exact tested_tested z
    | succ k => rw [Iteration.after, Iteration.after, hstep]
  induction h with
  | none => rfl
  | @more k it it' x ho hl _ ih =>
    rw [Iteration.after, (returns_step_lap ho hl).2, hafter, ih]

end Courses

end Rootfinder.Iteration

namespace Rootfinder.Session

variable {α : Type} [Scalar α] {n k : Nat}

/-- The session after a number of steps, whether they return or not. -/
def after : Nat → Session α n → Session α n
  | 0, s => s
  | k + 1, s => after k (step.run s).state

/-- The iterate, its residual, and the statistics. -/
def reading (s : Session α n) : Vec α n × Vec α n × Stats :=
  (s.iteration.u, s.iteration.fu, s.iteration.stats)

theorem after_eq (k : Nat) (s : Session α n) :
    s.after k = { s with iteration := Iteration.after s.method k s.iteration } := by
  induction k generalizing s with
  | zero => rfl
  | succ k ih =>
    rw [after, ih]
    rfl

variable {s : Session α n} {x : Iteration α n (s.algorithm.Memory n)}

/-- After as many steps as laps, a session shows the state that they lead to. -/
theorem reading_after (h : Iteration.Laps s.method k s.iteration x) :
    (s.after k).reading = (x.u, x.fu, x.stats) := by
  have ht := h.after
  have hu := congrArg Iteration.u ht
  have hfu := congrArg Iteration.fu ht
  have hstats := congrArg Iteration.stats ht
  simp only [Iteration.tested_u, Iteration.tested_fu, Iteration.tested_stats] at hu hfu hstats
  rw [after_eq, reading]
  exact Prod.ext hu (Prod.ext hfu hstats)

theorem laps_of_outcome {r : Run α n} (h : s.outcome = .ok r) : ∃ k x,
    Iteration.Laps s.method k s.iteration x ∧ (x.tested s.method).terminated = true ∧
      s.driven.iteration = x.tested s.method ∧ r = (x.tested s.method).toRun s.method := by
  have hs : (Iteration.solve s.method).Returns s.iteration r s.driven.iteration := ⟨h, rfl⟩
  obtain ⟨k, x, hl, hx, he, hr⟩ := Iteration.laps_of_returns s.method_advance_at hs
  rw [he] at hr
  exact ⟨k, x, hl, hx, he, hr⟩

/-- The run that a session arrives at by some laps. -/
theorem outcome_of_laps (h : Iteration.Laps s.method k s.iteration x)
    (hx : (x.tested s.method).terminated = true) :
    ∃ r, s.outcome = .ok r ∧ r.code = (x.tested s.method).code ∧
      r.stats.nsteps = s.iteration.stats.nsteps + k ∧
      (s.after k).reading = (r.u, r.resid, r.stats) := by
  refine ⟨_, (h.returns_solve s.method_advance_at hx).1, rfl, ?_, ?_⟩
  · rw [Iteration.toRun, Iteration.tested_stats]
    exact h.steps s.method_advance_at
  · rw [reading_after h, Iteration.toRun, Iteration.tested_u, Iteration.tested_fu,
      Iteration.tested_stats]

end Rootfinder.Session
