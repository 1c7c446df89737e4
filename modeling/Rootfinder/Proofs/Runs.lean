import Rootfinder.Proofs.Budget
import Rootfinder.Proofs.Endings

namespace Rootfinder.Iteration

variable {α σ : Type} [Scalar α] {n : ℕ} {m : Method α n σ} {P : Problem α n}
  {b e it x : Iteration α n σ}

variable (m P b) in
/-- A run begins when a method is started on a problem, or when it is started over, whatever was
asked of it before. -/
inductive Begins : Prop where
  | start (h : (start m P).Returns () b ())
  | reinit {it₀ it : Iteration α n σ} {xs : Option (List α)} {parameter : Option (Parameter α)}
    (h₀ : (Iteration.start m P).Returns () it₀ ())
    (h : Act.Reached (serve m) (fun _ => True) it₀ it)
    (hr : (Iteration.reinit m xs parameter).Returns it () b)

variable (m) in
/-- A request that goes on with a run and returns. -/
def GoesOn (it : Iteration α n σ) (r : Request α) : Prop :=
  (r = .step ∨ r = .solve) ∧ Act.Granted (serve m) it r

/-- Requests change the starting point and the parameter of a problem, and nothing else of it. -/
theorem keeps_serve_system (hm : ∀ P k, m.advance.Keeps (At P k)) {S : System α n} (r : Request α) :
    (serve m r).Keeps fun it => it.problem.system = S := by
  refine keeps_serve (fun it h => ?_) (fun xs parameter => Act.keeps_of_wp fun it h => ?_) r
  · rwa [step_problem hm it]
  · refine (wp_reinit_begun xs parameter).mono (fun _ it' h' => ?_) fun _ it' h' => ?_
    · obtain ⟨P, hP, -, rfl⟩ := h'
      exact (Problem.remake_system hP).trans h
    · obtain rfl | ⟨P, hP, -, rfl⟩ := h'
      · exact h
      · exact (Problem.remake_system hP).trans h

/-- A run begins at the starting point of a problem on the same system. -/
theorem Begins.begun (hm : ∀ P k, m.advance.Keeps (At P k)) (h : Begins m P b) :
    ∃ P' fu, P'.system = P.system ∧ b = Iteration.begun m P' fu := by
  cases h with
  | start h => exact ⟨P, _, rfl, (h.wp_iff.mp wp_start_begun).2⟩
  | reinit h₀ h hr =>
    obtain ⟨-, rfl⟩ := h₀.wp_iff.mp wp_start_begun
    obtain ⟨P', hP', -, rfl⟩ := hr.wp_iff.mp (wp_reinit_begun _ _)
    have hsystem := h.keeps (P := fun it => it.problem.system = P.system) rfl fun r _ =>
      keeps_serve_system hm r
    exact ⟨P', _, (Problem.remake_system hP').trans hsystem, rfl⟩

/-- A step that returns is a request that goes on. -/
theorem served_step (h : (step m).Returns b () x) :
    Act.Served (serve m) (GoesOn m) b [.step] x := by
  obtain ⟨hresult, rfl⟩ := h
  exact .more ⟨.inl rfl, congrArg Except.isOk hresult⟩ (.none _)

/-- Steps that return are requests that go on. -/
theorem served_steps {k : ℕ} (h : ∀ i < k, ((step m).run (after m i b)).result.isOk = true) :
    Act.Served (serve m) (GoesOn m) b (List.replicate k .step) (after m k b) := by
  induction k generalizing b with
  | zero => exact .none b
  | succ k ih =>
    refine .more ⟨.inl rfl, h 0 (Nat.succ_pos k)⟩ (ih fun i hi => ?_)
    exact h (i + 1) (Nat.succ_lt_succ hi)

/-- States that differ by the test at most are at one point, with the same work and memory. -/
theorem reading_of_tested (h : it.tested m = x.tested m) :
    it.u = x.u ∧ it.fu = x.fu ∧ it.stats = x.stats ∧ it.memory = x.memory := by
  refine ⟨?_, ?_, ?_, ?_⟩
  · simpa using congrArg Iteration.u h
  · simpa using congrArg Iteration.fu h
  · simpa using congrArg Iteration.stats h
  · simpa using congrArg Iteration.memory h

section Courses

variable (hm : ∀ P k, m.advance.Keeps (At P k))

include hm

theorem OnCourse.serve (h : OnCourse m b it) {r : Request α} (hr : GoesOn m it r) :
    OnCourse m b ((Iteration.serve m r).run it).state := by
  obtain ⟨rfl | rfl, hok⟩ := hr
  · exact h.step (Act.returns_of_isOk hok)
  · have hw : (Iteration.serve m .solve).wp (fun _ => OnCourse m b) (fun _ _ => True) it := by
      rw [Iteration.serve, Act.wp_bind]
      exact (Act.wp_self _ it).mono (fun _ _ hs => h.solve hm hs) fun _ _ _ => trivial
    exact (Act.returns_of_isOk hok).wp_iff.mp hw

/-- A run that goes on has made as many laps as it counts steps. -/
theorem laps_of_served {rs : List (Request α)} (h : Act.Served (serve m) (GoesOn m) b rs e)
    (hb : b.stats.nsteps = 0) : ∃ (k : ℕ) (x : Iteration α n σ),
      Laps m k b x ∧ e.stats.nsteps = k ∧ e.tested m = x.tested m := by
  have hcourse : OnCourse m b e := h.keeps (P := OnCourse m b) (.refl b) fun _ _ hs hr =>
    hs.serve hm hr
  obtain ⟨k, x, hx, he⟩ := hcourse
  have hsteps := congrArg (fun it => it.stats.nsteps) he
  simp only [tested_stats] at hsteps
  exact ⟨k, x, hx, by rw [hsteps, hx.steps hm, hb, Int.zero_add], he⟩

/-- Whatever a run has arrived at was tested, unless nothing was asked of it. -/
theorem tested_of_served {rs : List (Request α)} (h : Act.Served (serve m) (GoesOn m) b rs e) :
    e = b ∨ e.tested m = e := by
  refine h.keeps (P := fun e => e = b ∨ e.tested m = e) (.inl rfl) fun it r _ hr => .inr ?_
  obtain ⟨rfl | rfl, hok⟩ := hr
  · obtain ⟨-, hx⟩ | ⟨-, x, -, hx⟩ := step_cases (Act.returns_of_isOk hok) <;>
      rw [Iteration.serve, hx, tested_tested]
  · have hw : (Iteration.serve m .solve).wp (fun _ x => x.tested m = x) (fun _ _ => True) it := by
      rw [Iteration.serve, Act.wp_bind]
      refine (Act.wp_self _ it).mono (fun _ x hs => ?_) fun _ _ _ => trivial
      obtain ⟨-, y, -, -, rfl, -⟩ := laps_of_returns hm hs
      exact tested_tested y
    exact (Act.returns_of_isOk hok).wp_iff.mp hw

end Courses

/-- A step keeps what its method keeps, if neither the statistics nor the code matter to it. -/
theorem keeps_step_of_advance {I : Iteration α n σ → Prop} (ha : m.advance.Keeps I)
    (hcounted : ∀ it s, I it → I { it with stats := s })
    (hended : ∀ it code, I it → I (it.ended code)) : (step m).Keeps I := by
  have htested : ∀ it, I it → I (it.tested m) := by
    intro it h
    obtain ht | ⟨-, code, -, ht⟩ := tested_cases (m := m) it
    · rwa [ht]
    · rw [ht]
      exact hended it code h
  apply Act.keeps_of_wp
  intro it h
  rw [wp_step_tested]
  split
  · exact htested it h
  · rw [lap, Act.wp_bind]
    exact (ha.wp h).mono (fun _ x hx => htested _ (hcounted x _ hx)) fun _ _ hx => hx

/-- What holds where a run begins, and goes on to hold lap by lap, holds after any number of
laps. -/
theorem Laps.induction {C : ℕ → Iteration α n σ → Prop} (hzero : C 0 b)
    (hsucc : ∀ (k : ℕ) (y x : Iteration α n σ), Laps m k b y → Iteration.after m k b = y →
      (y.tested m).terminated = false → (lap m).Returns y () x → C k y → C (k + 1) x)
    {k : ℕ} (h : Laps m k b x) : C k x := by
  induction k generalizing x with
  | zero =>
    cases h
    exact hzero
  | succ k ih =>
    obtain ⟨y, hy, ho, hl⟩ := h.last
    exact hsucc k y x hy (hy.after_eq ho) ho hl (ih hy)

end Rootfinder.Iteration
