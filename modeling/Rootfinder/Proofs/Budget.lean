import Rootfinder.Proofs.Restarts
import Rootfinder.Proofs.RunDecomposition

namespace Rootfinder

variable {α σ : Type} {n : Nat}

namespace Method

/-- The steps of the method leave their number alone, however they end. -/
def Uncounting (m : Method α n σ) : Prop := ∀ k, m.advance.Keeps fun it => it.stats.nsteps = k

/-- A run that the method has stopped has a code. -/
def Decisive (m : Method α n σ) : Prop :=
  m.advance.Keeps fun it => it.stopped = true → it.code ≠ .default

end Method

namespace Iteration

/-- What can be asked of a run; the point to start over from may not even be readable. -/
inductive Request (α : Type) where
  | step
  | solve
  | reinit (start : Except (Fault α) (Option (List α))) (parameter : Option (Parameter α))

variable [Scalar α] {m : Method α n σ} {it it' : Iteration α n σ} {P : Iteration α n σ → Prop}

/-- Serves a request. -/
def serve (m : Method α n σ) : Request α → Act α (Iteration α n σ) Unit
  | .step => step m
  | .solve => do
    let _ ← solve m
    pure ()
  | .reinit start parameter => do
    let xs ← Act.ofExcept start
    reinit m xs parameter

theorem keeps_serve (hstep : (step m).Keeps P)
    (hreinit : ∀ start parameter, (reinit m start parameter).Keeps P) (r : Request α) :
    (serve m r).Keeps P := by
  cases r with
  | step => exact hstep
  | solve => exact (keeps_solve_of_step hstep).bind fun _ => Act.keeps_pure _
  | reinit start parameter => exact (Act.keeps_ofExcept start).bind fun xs => hreinit xs parameter

omit [Scalar α] in
/-- Starting over leads to what holds of a run without a step or a code. -/
theorem keeps_reinit (h : ∀ it : Iteration α n σ, it.stats.nsteps = 0 → it.code = .default →
    it.stopped = false → P it) (start : Option (List α)) (parameter : Option (Parameter α)) :
    (reinit m start parameter).Keeps P := by
  apply Act.keeps_of_wp
  intro it hit
  refine (wp_reinit_begun start parameter).mono ?_ ?_
  · intro _ x hx
    obtain ⟨P, -, -, rfl⟩ := hx
    exact h _ rfl rfl rfl
  · intro _ x hx
    obtain rfl | ⟨P, -, -, rfl⟩ := hx
    · exact hit
    · exact h _ rfl rfl rfl

def InBudget (m : Method α n σ) (it : Iteration α n σ) : Prop :=
  0 ≤ it.stats.nsteps ∧ it.stats.nsteps ≤ m.options.budget

def Decided (it : Iteration α n σ) : Prop := it.stopped = true → it.code ≠ .default

theorem tested_decided (h : it.Decided) : (it.tested m).Decided := by
  obtain htested | ⟨-, code, hv, htested⟩ := tested_cases (m := m) it
  · rw [htested]
    exact h
  · intro _
    rw [htested]
    rintro rfl
    simp only [verdict] at hv
    split at hv
    · cases hv
    · split at hv
      · cases hv
      · split at hv <;> cases hv

omit [Scalar α] in
theorem Decided.of_terminated (h : it.Decided) (ht : it.terminated = true) :
    it.code ≠ .default := by
  intro hc
  simp only [terminated, hc, bne_self_eq_false, Bool.or_false] at ht
  exact h ht hc

theorem keeps_step_decided (hm : m.Decisive) : (step m).Keeps Decided := by
  apply Act.keeps_of_wp
  intro it h
  rw [wp_step_tested]
  split
  · exact tested_decided h
  · rw [lap, Act.wp_bind]
    refine (Act.Keeps.wp hm h).mono (fun _ x hx => ?_) fun _ x hx => hx
    have hcounted : Decided { x with stats := x.stats.countStep } := hx
    exact tested_decided hcounted

theorem returns_drive_terminated (h : it.terminated = true) (fuel : Nat) :
    (drive m fuel).Returns it () it := by
  rw [Act.Returns, drive_of_terminated h]
  exact ⟨rfl, rfl⟩

section Steps

variable (hm : m.Uncounting)

include hm

/-- A step that the test lets pass is within the budget even when it is counted. -/
theorem wp_step_inBudget (h : it.InBudget m) : (step m).wp
    (fun _ x => x.InBudget m ∧ ((it.tested m).terminated = false →
      x.stats.nsteps = it.stats.nsteps + 1)) (fun _ x => x.stats.nsteps = it.stats.nsteps) it := by
  rw [wp_step_tested]
  split
  · rename_i ht
    refine ⟨?_, fun ho => absurd (ht.symm.trans ho) (by decide)⟩
    rw [InBudget, tested_stats]
    exact h
  · rename_i ho
    have hlt : it.stats.nsteps < m.options.budget := steps_lt_budget (by simpa using ho)
    rw [lap, Act.wp_bind]
    refine ((hm it.stats.nsteps).wp rfl).mono (fun _ x hx => ?_) fun _ x hx => hx
    rw [Act.wp_update, InBudget, tested_stats]
    have hcount : x.stats.countStep.nsteps = it.stats.nsteps + 1 := congrArg (· + 1) hx
    refine ⟨⟨?_, ?_⟩, fun _ => hcount⟩
    · rw [hcount]
      exact Int.add_nonneg h.1 Int.one_nonneg
    · rw [hcount]
      exact hlt

theorem keeps_step_inBudget : (step m).Keeps (InBudget m) := by
  apply Act.keeps_of_wp
  intro it h
  refine (wp_step_inBudget hm h).mono (fun _ _ hx => hx.1) fun _ x hx => ?_
  rw [InBudget, hx]
  exact h

/-- A step that returns ends the run as the test does, or is counted. -/
theorem step_ends_or_counts (h : (step m).Returns it () it') :
    (∃ code, it' = it.ended code) ∨ it.terminated = true ∧ it' = it ∨
      it'.stats.nsteps = it.stats.nsteps + 1 ∧
        (it'.terminated = true ∨ it.stats.nsteps + 1 < m.options.budget) := by
  obtain ⟨ht, rfl⟩ | ⟨ho, x, hl, rfl⟩ := step_cases h
  · obtain htested | ⟨-, code, -, htested⟩ := tested_cases (m := m) it
    · rw [htested] at ht ⊢
      exact .inr (.inl ⟨ht, rfl⟩)
    · exact .inl ⟨code, htested⟩
  · have hw : (lap m).wp (fun _ x => x.stats.nsteps = it.stats.nsteps + 1)
        (fun _ _ => True) it := by
      rw [lap, Act.wp_bind]
      refine ((hm it.stats.nsteps).wp rfl).mono (fun _ x hx => ?_) fun _ _ _ => trivial
      exact congrArg (· + 1) hx
    have hcount := hl.wp_iff.mp hw
    refine .inr (.inr ⟨by rw [tested_stats, hcount], ?_⟩)
    cases hx : (x.tested m).terminated with
    | true => exact .inl rfl
    | false =>
      refine .inr ?_
      rw [← hcount]
      exact steps_lt_budget hx

/-- The steps left of the budget decrease with every step that does not end the run. -/
theorem step_measure (ht : it.terminated = false) (h : (step m).Returns it () it') :
    it'.terminated = true ∨
      (m.options.budget - it'.stats.nsteps).toNat < (m.options.budget - it.stats.nsteps).toNat := by
  obtain ⟨code, rfl⟩ | ⟨hover, -⟩ | ⟨hcount, hover | hlt⟩ := step_ends_or_counts hm h
  · exact .inl rfl
  · rw [ht] at hover
    cases hover
  · exact .inl hover
  · exact .inr (by omega)

/-- Fuel beyond the steps left of the budget makes no difference to a run. -/
theorem run_drive_eq {fuel fuel' : Nat} (hf : (m.options.budget - it.stats.nsteps).toNat < fuel)
    (hf' : (m.options.budget - it.stats.nsteps).toNat < fuel') :
    (drive m fuel).run it = (drive m fuel').run it := by
  -- On the fuel: each step that goes on takes one off the budget and one off both fuels.
  induction fuel generalizing it fuel' with
  | zero => exact absurd hf (Nat.not_lt_zero _)
  | succ fuel ih =>
    obtain ⟨fuel', rfl⟩ := Nat.exists_eq_succ_of_ne_zero (Nat.ne_zero_of_lt hf')
    rw [drive, drive, Act.run_read_bind, Act.run_read_bind]
    cases ht : it.terminated with
    | true => rfl
    | false =>
      apply Act.run_bind_congr
      intro _ hr
      obtain hover | hlt := step_measure hm ht ⟨hr, rfl⟩
      · rw [drive_of_terminated hover, drive_of_terminated hover]
      · exact ih (by omega) (by omega)

/-- Where no step raises, a run ends by the first state that is over, which it does not miss. -/
theorem returns_drive_after {fuel : Nat}
    (hf : (m.options.budget - it.stats.nsteps).toNat < fuel)
    (hret : ∀ k, (after m k it).terminated = false →
      ((step m).run (after m k it)).result = .ok ()) :
    ∃ k ≤ (m.options.budget - it.stats.nsteps).toNat + 1,
      (∀ j < k, (after m j it).terminated = false) ∧ (after m k it).terminated = true ∧
        (drive m fuel).Returns it () (after m k it) := by
  -- The number of steps is found from the end, so a first step is put before those of the rest.
  induction fuel generalizing it with
  | zero => exact absurd hf (Nat.not_lt_zero _)
  | succ fuel ih =>
    cases ht : it.terminated with
    | true =>
      exact ⟨0, Nat.zero_le _, nofun, ht, returns_drive_terminated ht _⟩
    | false =>
      have hstep : (step m).Returns it () ((step m).run it).state := ⟨hret 0 ht, rfl⟩
      have hdrive : ∀ {e}, (drive m fuel).Returns ((step m).run it).state () e →
          (drive m (fuel + 1)).Returns it () e := by
        intro e he
        apply Act.returns_of_wp
        rw [drive, Act.wp_bind, Act.wp_read, if_neg (by simp [ht]), Act.wp_bind, hstep.wp_iff,
          he.wp_iff]
        exact ⟨rfl, rfl⟩
      obtain hover | hlt := step_measure hm ht hstep
      · refine ⟨1, Nat.le_add_left 1 _, fun j hj => ?_, hover,
          hdrive (returns_drive_terminated hover fuel)⟩
        obtain rfl : j = 0 := by omega
        exact ht
      · obtain ⟨k, hk, hbefore, hover, hret'⟩ := ih (by omega) fun k hk => hret (k + 1) hk
        refine ⟨k + 1, by omega, fun j hj => ?_, hover, hdrive hret'⟩
        cases j with
        | zero => exact ht
        | succ j => exact hbefore j (by omega)

end Steps

theorem after_keeps (h : (step m).Keeps P) (hit : P it) (k : Nat) : P (after m k it) := by
  induction k generalizing it with
  | zero => exact hit
  | succ k ih => exact ih (h it hit)

theorem step_of_terminated (h : it.terminated = true) : (step m).run it = ⟨.ok (), it, []⟩ := by
  rw [step, Act.run_read_bind, if_pos h]
  rfl

theorem after_of_terminated (h : it.terminated = true) (k : Nat) : after m k it = it := by
  induction k with
  | zero => rfl
  | succ k ih => rw [after, step_of_terminated h, ih]

theorem after_add (j k : Nat) : after m (j + k) it = after m k (after m j it) := by
  induction j generalizing it with
  | zero => rw [Nat.zero_add, after]
  | succ j ih => rw [Nat.succ_add, after, after, ih]

/-- The parts of a step leave a run without a code only where it is not stopped. -/
theorem stable_decided : Stable (fun _ _ => True) (Decided (α := α) (n := n) (σ := σ)) where
  evaluate x it h := by
    simp only [evaluate, Act.wp_bind, Act.wp_update, Act.wp_read]
    cases it.problem.residual x with
    | ok r => exact ⟨h, trivial⟩
    | error e => exact h
  moveTo x := by
    apply Act.keeps_of_wp
    intro it h
    rw [moveTo, Act.wp_bind, Act.wp_update, wp_refresh_into]
    split <;> exact h
  adopt _ := Act.keeps_update fun _ h => h
  counted h _ := h
  memory _ h := h
  ended hc _ := fun _ => hc.2

end Iteration

open Iteration

namespace Algorithm

variable [Scalar α]

theorem uncounting (a : Algorithm α) (o : Options α) : (a.method o n).Uncounting :=
  fun k it hk => (a.keeps_at o it.problem k it ⟨rfl, hk⟩).steps

/-- Only a replayed script can end a run without a code. -/
theorem decisive {a : Algorithm α} (ha : a.BuiltIn) (o : Options α) :
    (a.method o n).Decisive :=
  keeps_advance ha o stable_decided

end Algorithm

/-- The budget of steps. Whatever a run was asked for, and whatever was raised meanwhile, the number
of its steps is within the budget. A step leaves a run that is over as it is; otherwise, if it
returns, it ends the run at once or is counted. Where no step raises, a solve returns with the first
state that is over, after no more steps than the budget has left and one; it has a code if the
method gives one to the runs that it ends. That a solve is given fuel for these steps only makes no
difference to it. -/
theorem runs_keep_to_budget [Scalar α] {m : Method α n σ} (hm : m.Uncounting) {P : Problem α n}
    {it₀ it : Iteration α n σ} (h₀ : ((start m P).run ()).result = .ok it₀)
    (h : Act.Reached (serve m) (fun _ => True) it₀ it) :
    (0 ≤ it.stats.nsteps ∧ it.stats.nsteps ≤ m.options.budget) ∧
      (it.terminated = true → (step m).run it = ⟨.ok (), it, []⟩) ∧
      (it.terminated = false → ∀ x, (step m).Returns it () x →
        (∃ code, x = it.ended code) ∨ x.stats.nsteps = it.stats.nsteps + 1) ∧
      ((∀ k, (after m k it).terminated = false →
          ((step m).run (after m k it)).result = .ok ()) →
        ∃ k : Nat, k ≤ m.options.budget - it.stats.nsteps + 1 ∧
          (∀ j < k, (after m j it).terminated = false) ∧ (after m k it).terminated = true ∧
          (solve m).Returns it ((after m k it).toRun m) (after m k it) ∧
          (m.Decisive → (after m k it).code ≠ .default)) ∧
      ∀ fuel, it.stepsLeft m ≤ fuel →
        (drive m fuel).run it = (drive m (it.stepsLeft m)).run it := by
  have hstart := wp_start_begun.of_ok h₀
  have hbudget : it.InBudget m := by
    refine h.keeps ?_ fun r _ => keeps_serve (keeps_step_inBudget hm) (keeps_reinit ?_) r
    · rw [hstart.2]
      exact ⟨Int.le_refl 0, Int.natCast_nonneg _⟩
    · intro x hx _ _
      rw [InBudget, hx]
      exact ⟨Int.le_refl 0, Int.natCast_nonneg _⟩
  refine ⟨hbudget, step_of_terminated, fun ht x hx => ?_, fun hret => ?_, fun fuel hf => ?_⟩
  · obtain hended | ⟨hover, -⟩ | ⟨hcount, -⟩ := step_ends_or_counts hm hx
    · exact .inl hended
    · rw [ht] at hover
      cases hover
    · exact .inr hcount
  · have hf : (m.options.budget - it.stats.nsteps).toNat < it.stepsLeft m := Nat.lt_succ_self _
    obtain ⟨k, hk, hbefore, hover, hdrive⟩ := returns_drive_after hm hf hret
    obtain ⟨-, hle⟩ := hbudget
    refine ⟨k, by omega, hbefore, hover, ?_, fun hdecisive => ?_⟩
    · apply Act.returns_of_wp
      rw [solve, Act.wp_bind, Act.wp_read, Act.wp_bind, hdrive.wp_iff, Act.wp_bind, Act.wp_read]
      exact ⟨rfl, rfl⟩
    · have hdecided : it.Decided := by
        refine h.keeps ?_ fun r _ => keeps_serve (keeps_step_decided hdecisive) (keeps_reinit ?_) r
        · rw [hstart.2]
          intro hs
          cases hs
        · intro x _ _ hx hs
          rw [hx] at hs
          cases hs
      exact (after_keeps (keeps_step_decided hdecisive) hdecided k).of_terminated hover
  · exact run_drive_eq hm hf (Nat.lt_succ_self _)

/-- Newton's method under usual options. -/
def plainNewton : Method Float 1 Unit :=
  (Candidate.newton none Settings.initial).algorithm.method ⟨1e-10, 1000, .l2⟩ 1

/-- The run that it begins on the parabola. -/
def parabolaRun : Iteration Float 1 Unit :=
  begun plainNewton parabola (parabola.residualInto parabola.start (Vec.zero 1)).array

theorem runs_keep_to_budget_parabola :
    ((start plainNewton parabola).run ()).result = .ok parabolaRun ∧
    (after plainNewton 1 parabolaRun).stats.nsteps = 1 ∧
    ∃ k : Nat, k ≤ (1000 : Int) - 1 + 1 ∧
      (solve plainNewton).Returns (after plainNewton 1 parabolaRun)
        ((after plainNewton k (after plainNewton 1 parabolaRun)).toRun plainNewton)
        (after plainNewton k (after plainNewton 1 parabolaRun)) ∧
      (after plainNewton k (after plainNewton 1 parabolaRun)).code ≠ .default := by
  have h₀ : ((start plainNewton parabola).run ()).result = .ok parabolaRun :=
    (returns_start rfl).1
  have hreached : Act.Reached (serve plainNewton) (fun _ => True) parabolaRun
      (after plainNewton 1 parabolaRun) := .after .start Request.step trivial
  have hsteps : (after plainNewton 1 parabolaRun).stats.nsteps = 1 := by decide +kernel
  have hover : (after plainNewton 4 (after plainNewton 1 parabolaRun)).terminated = true := by
    decide +kernel
  have hearly : ∀ k < 4, ((step plainNewton).run (after plainNewton k
      (after plainNewton 1 parabolaRun))).result.isOk = true := by decide +kernel
  have hm : plainNewton.Uncounting := Algorithm.uncounting _ _
  have hdecisive : plainNewton.Decisive := Algorithm.decisive (a := .newton none _) trivial _
  obtain ⟨-, -, -, hsolve, -⟩ := runs_keep_to_budget hm h₀ hreached
  obtain ⟨k, hk, -, -, hret, hcode⟩ := hsolve fun k hrunning => by
    by_cases hlt : k < 4
    · exact (Act.returns_of_isOk (hearly k hlt)).1
    · obtain ⟨j, rfl⟩ := Nat.exists_eq_add_of_le (Nat.le_of_not_lt hlt)
      rw [after_add, after_of_terminated hover, hover] at hrunning
      cases hrunning
  rw [hsteps] at hk
  exact ⟨h₀, hsteps, k, hk, hret, hcode hdecisive⟩

/-- A script that ends a run and leaves it without a code. -/
def undecided : Method Float 1 Unit :=
  (Candidate.replay ⟨"a", some .default, [0.0], [1.0], 1, true⟩ Settings.initial).algorithm.method
    ⟨1e-10, 1000, .l2⟩ 1

/-- What a system shows of its argument is the argument. -/
def mirror : Problem Float 1 := ⟨.outOfPlace (fun u _ => .ok u) none, .replicate 1 1.0, .absent⟩

def mirrorRun : Iteration Float 1 Unit :=
  begun undecided mirror (mirror.residualInto mirror.start (Vec.zero 1)).array

theorem solve_may_leave_no_code : undecided.Uncounting ∧
    ((start undecided mirror).run ()).result = .ok mirrorRun ∧
    (∀ k, ((step undecided).run (after undecided k mirrorRun)).result = .ok ()) ∧
    ∃ r, ((solve undecided).run mirrorRun).result = .ok r ∧ r.code = .default := by
  have hover : (after undecided 1 mirrorRun).terminated = true := by decide +kernel
  have hcode : ((solve undecided).run mirrorRun).result.toOption.map Run.code = some .default := by
    decide +kernel
  have hfirst : ((step undecided).run mirrorRun).result.isOk = true := by decide +kernel
  refine ⟨Algorithm.uncounting _ _, (returns_start rfl).1, fun k => ?_, ?_⟩
  · cases k with
    | zero => exact (Act.returns_of_isOk hfirst).1
    | succ k =>
      rw [Nat.add_comm, after_add, after_of_terminated hover, step_of_terminated hover]
  · cases hr : ((solve undecided).run mirrorRun).result with
    | error e => rw [hr] at hcode; cases hcode
    | ok r =>
      rw [hr] at hcode
      exact ⟨r, rfl, Option.some.inj hcode⟩

end Rootfinder
