import Rootfinder.Proofs.Methods

namespace Rootfinder

variable {α σ β : Type} {n : Nat}

/-- A system evaluates `F`: it raises nowhere, and in place it stores every component. -/
def System.Computes (F : Vec α n → Parameter α → Vec α n) : System α n → Prop
  | .outOfPlace f _ => ∀ u p, f u p = .ok (F u p)
  | .inPlace f _ => ∀ u p out, (f u p).fill out = ⟨F u p, none⟩

section Evaluation

variable {F : Vec α n → Parameter α → Vec α n} {P : Problem α n}

theorem Problem.residualInto_eq (hF : P.system.Computes F) (u out : Vec α n) :
    P.residualInto u out = ⟨F u P.parameter, none⟩ := by
  unfold System.Computes at hF
  unfold Problem.residualInto
  cases hs : P.system with
  | outOfPlace f jac =>
    rw [hs] at hF
    simp only [hF, Filled.ofExcept]
  | inPlace f jac =>
    rw [hs] at hF
    simp only [hF]

theorem Problem.residual_eq [Scalar α] (hF : P.system.Computes F) (u : Vec α n) :
    P.residual u = .ok (F u P.parameter) := by
  rw [Problem.residual, Problem.residualInto_eq hF, Filled.toExcept]

theorem Problem.remake_system {P' : Problem α n} {start : Option (List α)}
    {parameter : Option (Parameter α)} (h : P.remake start parameter = .ok P') :
    P'.system = P.system := by
  unfold Problem.remake at h
  split at h
  · cases h; rfl
  · split at h <;> cases h
    rfl

end Evaluation

namespace Iteration

structure Consistent (F : Vec α n → Parameter α → Vec α n) (it : Iteration α n σ) : Prop where
  computes : it.problem.system.Computes F
  residual : it.fu = F it.u it.problem.parameter

/-- Between calls, a run that claims success has a residual within the tolerance. -/
structure Sound [Scalar α] (F : Vec α n → Parameter α → Vec α n) (o : Options α)
    (it : Iteration α n σ) : Prop extends Consistent F it where
  success : it.code = .success →
    Scalar.isFinite (o.norm.of it.fu) = true ∧ o.norm.of it.fu ≤ o.tolerance

structure Underway (P : Problem α n) (F : Vec α n → Parameter α → Vec α n)
    (it : Iteration α n σ) : Prop where
  problem : it.problem = P
  residual : it.fu = F it.u P.parameter
  unclaimed : it.code ≠ .success

section Steps

variable {F : Vec α n → Parameter α → Vec α n} {P : Problem α n}

theorem wp_refresh (hF : P.system.Computes F) {it : Iteration α n σ} (hp : it.problem = P)
    {post : Unit → Iteration α n σ → Prop} {broken : Fault α → Iteration α n σ → Prop} :
    refresh.wp post broken it ↔
      post () { it with fu := F it.u P.parameter, stats := it.stats.countResidual } := by
  simp [refresh, hp, Problem.residualInto_eq hF]

theorem wp_moveTo (hF : P.system.Computes F) {it : Iteration α n σ} (hp : it.problem = P)
    (x : Vec α n) {post : Unit → Iteration α n σ → Prop}
    {broken : Fault α → Iteration α n σ → Prop} :
    (moveTo x).wp post broken it ↔
      post () { it with u := x, fu := F x P.parameter, stats := it.stats.countResidual } := by
  have hp' : ({ it with u := x } : Iteration α n σ).problem = P := hp
  simp [moveTo, wp_refresh hF hp']

variable [Scalar α]

theorem wp_evaluate (hF : P.system.Computes F) {it : Iteration α n σ} (hp : it.problem = P)
    (x : Vec α n) {post : Vec α n → Iteration α n σ → Prop}
    {broken : Fault α → Iteration α n σ → Prop} :
    (evaluate x).wp post broken it ↔
      post (F x P.parameter) { it with stats := it.stats.countResidual } := by
  simp [evaluate, hp, Problem.residual_eq hF]

/-- Each part of a step leaves iterate and residual in step. -/
theorem stable_underway (hF : P.system.Computes F) :
    Stable (fun x r => r = F x P.parameter) (Underway (σ := σ) P F) where
  evaluate x it h := by
    rw [wp_evaluate hF h.problem]
    exact ⟨⟨h.problem, h.residual, h.unclaimed⟩, rfl⟩
  moveTo x := by
    apply Act.keeps_of_wp
    intro it h
    rw [wp_moveTo hF h.problem]
    exact ⟨h.problem, rfl, h.unclaimed⟩
  adopt hr := Act.keeps_update fun _ h => ⟨h.problem, hr, h.unclaimed⟩
  counted h _ := ⟨h.problem, h.residual, h.unclaimed⟩
  memory _ h := ⟨h.problem, h.residual, h.unclaimed⟩
  ended hc h := ⟨h.problem, h.residual, hc.1⟩

end Steps

section Calls

variable [Scalar α] {F : Vec α n → Parameter α → Vec α n} {P : Problem α n} {o : Options α}

theorem Sound.underway {it : Iteration α n σ} (h : Sound F o it) (ht : it.terminated = false) :
    Underway it.problem F it := by
  refine ⟨rfl, h.residual, fun hc => ?_⟩
  simp [terminated, hc] at ht

theorem Underway.sound {it : Iteration α n σ} (h : Underway P F it) (hF : P.system.Computes F) :
    Sound F o it :=
  ⟨⟨h.problem ▸ hF, h.problem ▸ h.residual⟩, fun hc => absurd hc h.unclaimed⟩

/-- Success is the verdict on a finite residual norm within the tolerance only. -/
theorem verdict_success {it : Iteration α n σ} (h : it.verdict o = some .success) :
    Scalar.isFinite (o.norm.of it.fu) = true ∧ o.norm.of it.fu ≤ o.tolerance := by
  simp only [verdict] at h
  split at h
  · cases h
  · rename_i hfin
    split at h
    · rename_i hle
      exact ⟨by simpa using hfin, hle⟩
    · split at h <;> cases h

variable {m : Method α n σ}

theorem keeps_checkTermination : (checkTermination m).Keeps (Sound (σ := σ) F m.options) := by
  apply Act.keeps_of_wp
  intro it h
  unfold checkTermination
  rw [Act.wp_bind, Act.wp_read]
  cases hv : it.verdict m.options with
  | none => exact h
  | some code =>
    change (finish m code).wp _ _ it
    rw [finish, wp_terminate]
    refine ⟨⟨h.computes, h.residual⟩, fun hc => ?_⟩
    obtain rfl : code = .success := hc
    exact verdict_success hv

theorem keeps_conclude : (conclude m).Keeps (Sound (σ := σ) F m.options) := by
  unfold conclude
  refine (Act.keeps_update fun it h => ⟨⟨h.computes, h.residual⟩, h.success⟩).bind fun _ => ?_
  refine Act.keeps_read.bind fun it => Act.Keeps.ite (Act.keeps_pure _) ?_
  exact (Act.keeps_report _).bind fun _ => keeps_checkTermination

theorem keeps_step (hm : ∀ P : Problem α n, P.system.Computes F → m.advance.Keeps (Underway P F)) :
    (step m).Keeps (Sound (σ := σ) F m.options) := by
  apply Act.keeps_of_wp
  intro it h
  unfold step
  simp only [Act.wp_bind, Act.wp_read]
  split
  · exact h
  · rw [Act.wp_bind]
    refine (keeps_checkTermination.wp h).mono (fun _ it' h' => ?_) (fun _ _ h' => h')
    simp only [Act.wp_bind, Act.wp_read]
    split
    · exact h'
    · rename_i ht
      have hu : Underway it'.problem F it' := h'.underway (by simpa using ht)
      rw [Act.wp_bind]
      refine ((hm _ h'.computes).wp hu).mono (fun _ it'' hu' => ?_) (fun _ it'' hu' => ?_)
      · exact keeps_conclude.wp (hu'.sound h'.computes)
      · exact hu'.sound h'.computes

theorem wp_restart (hF : P.system.Computes F) (o : Options α) {it : Iteration α n σ}
    (hp : it.problem = P) {broken : Fault α → Iteration α n σ → Prop} :
    (restart m).wp (fun _ it' => Sound F o it' ∧ it'.problem = P) broken it := by
  have hp' : ({ it with code := .default, stopped := false } : Iteration α n σ).problem = P := hp
  simp only [restart, Act.wp_bind, Act.wp_update, wp_refresh hF hp']
  refine ⟨⟨⟨hp ▸ hF, ?_⟩, fun hc => by cases hc⟩, hp⟩
  rw [hp]

theorem wp_start (hF : P.system.Computes F) (o : Options α) {broken : Fault α → Unit → Prop} :
    (start m P).wp (fun it _ => Sound F o it ∧ it.problem = P) broken () := by
  have hp : (blank P : Iteration α n Unit).problem = P := rfl
  simp only [start, Act.wp_within, Act.wp_bind, wp_refresh hF hp, Act.wp_read]
  exact ⟨⟨⟨hF, rfl⟩, fun hc => by cases hc⟩, rfl⟩

/-- Starting over remakes the stored problem; where that is refused, nothing has changed. -/
theorem wp_reinit {it : Iteration α n σ} (h : Sound F o it) (start : Option (List α))
    (parameter : Option (Parameter α)) :
    (reinit m start parameter).wp
      (fun _ it' => Sound F o it' ∧ it.problem.remake start parameter = .ok it'.problem)
      (fun _ it' => it' = it ∧ ∃ e, it.problem.remake start parameter = .error e) it := by
  unfold reinit
  rw [Act.wp_bind, Act.wp_read, Act.wp_bind]
  cases hr : it.problem.remake start parameter with
  | error e => exact ⟨rfl, e, rfl⟩
  | ok P' =>
    have hF' : P'.system.Computes F := Problem.remake_system hr ▸ h.computes
    simp only [Act.wp_ofExcept_ok, Act.wp_bind, Act.wp_update]
    refine (wp_restart hF' o rfl).mono (fun _ it' h' => ?_) (fun _ _ hb => hb)
    exact ⟨h'.1, by rw [h'.2]⟩

end Calls

end Iteration

end Rootfinder
