import Rootfinder.Proofs.Methods

namespace Rootfinder

variable {α σ : Type} [Scalar α] {n : Nat}

namespace Iteration

structure At (P : Problem α n) (k : Int) (it : Iteration α n σ) : Prop where
  problem : it.problem = P
  steps : it.stats.nsteps = k

omit [Scalar α] in
theorem keeps_refresh (P : Problem α n) (k : Int) :
    (refresh : Act α (Iteration α n σ) Unit).Keeps (At P k) := by
  unfold refresh
  refine (Act.keeps_update fun _ h => ⟨h.problem, h.steps⟩).bind fun _ => ?_
  refine Act.keeps_read.bind fun it => ?_
  refine (Act.keeps_update fun _ h => ⟨h.problem, h.steps⟩).bind fun _ => ?_
  cases (it.problem.residualInto it.u it.fu).fault with
  | none => exact Act.keeps_pure _
  | some e => exact Act.keeps_raise e

/-- The parts of a step do not depend on what is at hand and what was counted. -/
theorem stable_at (P : Problem α n) (k : Int) : Stable (fun _ _ => True) (At (σ := σ) P k) where
  evaluate x it h := by
    simp only [evaluate, Act.wp_bind, Act.wp_update, Act.wp_read]
    cases it.problem.residual x with
    | ok r => exact ⟨⟨h.problem, h.steps⟩, trivial⟩
    | error e => exact ⟨h.problem, h.steps⟩
  moveTo x := (Act.keeps_update fun _ h => ⟨h.problem, h.steps⟩).bind fun _ => keeps_refresh P k
  adopt _ := Act.keeps_update fun _ h => ⟨h.problem, h.steps⟩
  counted h hs := ⟨h.problem, hs.trans h.steps⟩
  memory _ h := ⟨h.problem, h.steps⟩
  ended _ h := ⟨h.problem, h.steps⟩

end Iteration

theorem Replay.keeps_advance (s : Script α) (o : Options α) (P : Problem α n) (k : Int) :
    (advance s o).Keeps (Iteration.At P k) := by
  unfold advance
  refine Act.keeps_read.bind fun it => Act.Keeps.ite (Act.keeps_pure _) ?_
  refine (Act.keeps_ofExcept _).bind fun u => ?_
  refine (Act.keeps_update fun _ h => ⟨h.problem, h.steps⟩).bind fun _ => ?_
  refine (Act.keeps_ofExcept _).bind fun r => ?_
  refine (Act.keeps_update fun _ h => ⟨h.problem, h.steps⟩).bind fun _ => ?_
  cases s.code with
  | none => exact Act.keeps_pure _
  | some code =>
    apply Act.keeps_of_wp
    intro it h
    rw [Iteration.wp_terminate]
    exact ⟨h.problem, h.steps⟩

/-- No method counts its steps itself. -/
theorem Algorithm.keeps_at (a : Algorithm α) (o : Options α) (P : Problem α n) (k : Int) :
    (a.method o n).advance.Keeps (Iteration.At P k) := by
  by_cases ha : a.BuiltIn
  · exact keeps_advance ha o (Iteration.stable_at P k)
  · cases a with
    | replay script => exact Replay.keeps_advance script o P k
    | _ => exact absurd trivial ha

namespace Iteration

variable {m : Method α n σ}

theorem wp_start_at {P : Problem α n} :
    (start m P).wp (fun it _ => At P 0 it) (fun _ _ => True) () := by
  have hat : At P 0 (blank P : Iteration α n Unit) := ⟨rfl, rfl⟩
  rw [start, Act.wp_within, Act.wp_bind]
  exact ((keeps_refresh P 0).wp hat).mono (fun _ _ h => ⟨h.problem, h.steps⟩) fun _ _ _ => trivial

/-- The test at the end of a step leaves a run that may go on within its budget. -/
theorem wp_checkTermination {it : Iteration α n σ} {broken : Fault α → Iteration α n σ → Prop} :
    (checkTermination m).wp (fun _ it' => it'.problem = it.problem ∧ it'.stats = it.stats ∧
      (it'.terminated = true ∨ it.stats.nsteps < m.options.budget)) broken it := by
  unfold checkTermination
  rw [Act.wp_bind, Act.wp_read]
  cases hv : it.verdict m.options with
  | some code =>
    change (finish m code).wp _ _ it
    rw [finish, wp_terminate]
    exact ⟨rfl, rfl, .inl rfl⟩
  | none =>
    refine ⟨rfl, rfl, .inr ?_⟩
    simp only [verdict] at hv
    split at hv
    · cases hv
    · split at hv
      · cases hv
      · split at hv
        · cases hv
        · omega

theorem wp_conclude {it : Iteration α n σ} {broken : Fault α → Iteration α n σ → Prop} :
    (conclude m).wp (fun _ it' => it'.problem = it.problem ∧
      it'.stats.nsteps = it.stats.nsteps + 1 ∧
      (it'.terminated = true ∨ it.stats.nsteps + 1 < m.options.budget)) broken it := by
  unfold conclude
  simp only [Act.wp_bind, Act.wp_update, Act.wp_read]
  split
  · rename_i ht
    exact ⟨rfl, rfl, .inl ht⟩
  · simp only [Act.wp_bind, Act.wp_report]
    refine wp_checkTermination.mono (fun _ it' h => ?_) (fun _ _ h => h)
    obtain ⟨hp, hs, ht⟩ := h
    exact ⟨hp, by rw [hs]; rfl, ht⟩

/-- What a solve hands out is the state it leaves. -/
theorem solve_result {it : Iteration α n σ} {r : Run α n}
    (h : ((solve m).run it).result = .ok r) : r = ((solve m).run it).state.toRun m := by
  have hw : (solve m).wp (fun r it' => r = it'.toRun m) (fun _ _ => True) it := by
    simp only [solve, Act.wp_bind, Act.wp_read]
    exact Act.wp_of_forall _ (fun _ _ => rfl) (fun _ _ => trivial)
  exact hw.of_ok h

variable (hm : ∀ P k, m.advance.Keeps (At P k))

include hm

/-- A step ends the run, or counts itself within the budget. -/
theorem wp_step {it : Iteration α n σ} :
    (step m).wp (fun _ it' => it'.problem = it.problem ∧ (it'.terminated = true ∨
      it'.stats.nsteps = it.stats.nsteps + 1 ∧ it.stats.nsteps + 1 < m.options.budget))
      (fun _ it' => it'.problem = it.problem) it := by
  unfold step
  simp only [Act.wp_bind, Act.wp_read]
  split
  · rename_i ht
    exact ⟨rfl, .inl ht⟩
  · rw [Act.wp_bind]
    refine wp_checkTermination.mono ?_ (fun _ _ h => h)
    intro _ it₁ h₁
    obtain ⟨hp₁, hs₁, -⟩ := h₁
    simp only [Act.wp_bind, Act.wp_read]
    split
    · rename_i ht
      exact ⟨hp₁, .inl ht⟩
    · rw [Act.wp_bind]
      have hat : At it.problem it.stats.nsteps it₁ := ⟨hp₁, by rw [hs₁]⟩
      refine ((hm _ _).wp hat).mono (fun _ it₂ h₂ => ?_) (fun _ it₂ h₂ => h₂.problem)
      refine wp_conclude.mono ?_ (fun _ _ h => h)
      intro _ it₃ h₃
      obtain ⟨hp₃, hs₃, ht₃⟩ := h₃
      rw [h₂.steps] at hs₃ ht₃
      exact ⟨hp₃.trans h₂.problem, ht₃.imp_right fun hb => ⟨hs₃, hb⟩⟩

theorem step_problem (it : Iteration α n σ) : ((step m).run it).state.problem = it.problem :=
  Act.keeps_of_wp (P := fun it' => it'.problem = it.problem)
    (fun _ h => (wp_step hm).mono (fun _ _ h' => h'.1.trans h) (fun _ _ h' => h'.trans h)) it rfl

theorem solve_problem (it : Iteration α n σ) : ((solve m).run it).state.problem = it.problem :=
  keeps_solve_of_step (P := fun it' => it'.problem = it.problem)
    (fun it' h => (step_problem hm it').trans h) it rfl

omit hm in
theorem wp_drive_terminated {it : Iteration α n σ} (ht : it.terminated = true) (fuel : Nat)
    {broken : Fault α → Iteration α n σ → Prop} :
    (drive m fuel).wp (fun _ it' => it'.terminated = true) broken it := by
  cases fuel with
  | zero => exact ht
  | succ fuel =>
    unfold drive
    rw [Act.wp_bind, Act.wp_read, if_pos ht]
    exact ht

/-- Fuel beyond the steps left of the budget is never used up. -/
theorem wp_drive {fuel : Nat} {it : Iteration α n σ}
    (hf : (m.options.budget - it.stats.nsteps).toNat < fuel) :
    (drive m fuel).wp (fun _ it' => it'.terminated = true) (fun _ _ => True) it := by
  induction fuel generalizing it with
  | zero => exact absurd hf (Nat.not_lt_zero _)
  | succ fuel ih =>
    unfold drive
    rw [Act.wp_bind, Act.wp_read]
    split
    · assumption
    · rw [Act.wp_bind]
      refine (wp_step hm).mono ?_ (fun _ _ _ => trivial)
      intro _ it' h'
      rcases h' with ⟨-, ht | ⟨hs, hb⟩⟩
      · exact wp_drive_terminated ht fuel
      · exact ih (by omega)

/-- A solve that returns has ended its run. -/
theorem solve_terminated {it : Iteration α n σ} {r : Run α n}
    (h : ((solve m).run it).result = .ok r) : ((solve m).run it).state.terminated = true := by
  have hw : (solve m).wp (fun _ it' => it'.terminated = true) (fun _ _ => True) it := by
    simp only [solve, Act.wp_bind, Act.wp_read]
    refine wp_drive hm ?_
    simp only [stepsLeft]
    omega
  exact hw.of_ok h

end Iteration

end Rootfinder
