import Rootfinder.Proofs.Convergence

namespace Rootfinder

variable {α σ : Type} {n : Nat}

section Evaluation

variable {P : Problem α n} {u out : Vec α n} {e : Fault α}

/-- What is raised does not depend on what is written over. -/
theorem Problem.residualInto_fault (P : Problem α n) (u out out' : Vec α n) :
    (P.residualInto u out').fault = (P.residualInto u out).fault := by
  obtain ⟨system, start, p⟩ := P
  cases system with
  | outOfPlace f jac =>
    simp only [Problem.residualInto]
    cases f u p <;> rfl
  | inPlace f jac => rfl

theorem Problem.residual_of_none [Scalar α] (hw : P.system.Overwrites)
    (h : (P.residualInto u out).fault = none) :
    P.residual u = .ok (P.residualInto u out).array := by
  rw [Problem.residual, Problem.residualInto_eq_of_overwrites hw h, Filled.toExcept, h]

theorem Problem.residual_of_some [Scalar α] (h : (P.residualInto u out).fault = some e) :
    P.residual u = .error e := by
  rw [Problem.residual, Filled.toExcept, P.residualInto_fault u out, h]

/-- A function that returns its values leaves what is to be written over alone until then. -/
theorem Problem.residualInto_array_of_some (hs : P.system.isInPlace = false)
    (h : (P.residualInto u out).fault = some e) : (P.residualInto u out).array = out := by
  obtain ⟨system, start, p⟩ := P
  cases system with
  | outOfPlace f jac =>
    simp only [Problem.residualInto] at h ⊢
    cases hf : f u p with
    | ok r => rw [hf] at h; cases h
    | error e => rfl
  | inPlace f jac => cases hs

variable [Scalar α]

def Problem.Shows (P : Problem α n) (u fu : Vec α n) : Prop := P.residual u = .ok fu

/-- The residual is what the problem shows of the point, if it shows anything. -/
def Problem.Admits (P : Problem α n) (u fu : Vec α n) : Prop := ∀ r, P.residual u = .ok r → fu = r

theorem Problem.Shows.admits {fu : Vec α n} (h : P.Shows u fu) : P.Admits u fu := by
  intro r hr
  exact Except.ok.inj (Eq.trans (Eq.symm h) hr)

theorem Problem.admits_of_error {fu : Vec α n} (h : P.residual u = .error e) : P.Admits u fu := by
  intro r hr
  rw [h] at hr
  cases hr

end Evaluation

namespace Iteration

variable [Scalar α] {P : Problem α n} {S : System α n} {o : Options α} {m : Method α n σ}
  {it : Iteration α n σ} {broken : Fault α → Iteration α n σ → Prop}

/-- A move writes the point before the residual is evaluated there. -/
theorem wp_moveTo_into (hw : it.problem.system.Overwrites) (x : Vec α n) :
    (moveTo x).wp
      (fun _ z => ∃ r, it.problem.residual x = .ok r ∧
        z = { it with u := x, fu := r, stats := it.stats.countResidual })
      (fun e z => (it.problem.residualInto x it.fu).fault = some e ∧
        z = { it with u := x, fu := (it.problem.residualInto x it.fu).array,
                      stats := it.stats.countResidual }) it := by
  rw [moveTo, Act.wp_bind, Act.wp_update, wp_refresh_into]
  simp only
  cases hf : (it.problem.residualInto x it.fu).fault with
  | none => exact ⟨_, Problem.residual_of_none hw hf, rfl⟩
  | some e => exact ⟨rfl, trivial⟩

/-- Within a step the problem stays, the residual is tied to the iterate, and nothing is claimed. -/
structure Tied (P : Problem α n) (tie : Vec α n → Vec α n → Prop) (it : Iteration α n σ) :
    Prop where
  problem : it.problem = P
  residual : tie it.u it.fu
  unclaimed : it.code ≠ .success

/-- Between calls the system stays, the residual is tied to the iterate, and success was tested. -/
structure Trusted (S : System α n) (o : Options α) (tie : Problem α n → Vec α n → Vec α n → Prop)
    (it : Iteration α n σ) : Prop where
  system : it.problem.system = S
  residual : tie it.problem it.u it.fu
  success : it.code = .success → it.Converged o

section Ties

variable {tie tie' : Vec α n → Vec α n → Prop}

omit [Scalar α] in
theorem Tied.imp (h : it.Tied P tie) (ht : tie it.u it.fu → tie' it.u it.fu) : it.Tied P tie' :=
  ⟨h.problem, ht h.residual, h.unclaimed⟩

omit [Scalar α] in
theorem resting_tied : Resting (Tied (σ := σ) P tie) where
  counted h _ := ⟨h.problem, h.residual, h.unclaimed⟩
  memory _ h := ⟨h.problem, h.residual, h.unclaimed⟩
  ended hc h := ⟨h.problem, h.residual, hc.1⟩

/-- Trial points leave the iterate alone until they are taken over with their residuals. -/
theorem trying_tied (ht : ∀ {x r}, P.residual x = .ok r → tie x r) :
    Trying (fun x r => P.residual x = .ok r) (Tied (σ := σ) P tie) where
  toResting := resting_tied
  evaluate x it h := by
    simp only [evaluate, Act.wp_bind, Act.wp_update, Act.wp_read]
    cases hr : it.problem.residual x with
    | ok r => exact ⟨⟨h.problem, h.residual, h.unclaimed⟩, h.problem ▸ hr⟩
    | error e => exact ⟨h.problem, h.residual, h.unclaimed⟩
  adopt hr := Act.keeps_update fun _ h => ⟨h.problem, ht hr, h.unclaimed⟩

end Ties

section Steps

variable {tie tie' : Problem α n → Vec α n → Vec α n → Prop}

theorem Trusted.imp (h : it.Trusted S o tie)
    (ht : tie it.problem it.u it.fu → tie' it.problem it.u it.fu) : it.Trusted S o tie' :=
  ⟨h.system, ht h.residual, h.success⟩

theorem Trusted.tied (h : it.Trusted S o tie) (ht : it.terminated = false) :
    it.Tied it.problem (tie it.problem) := by
  refine ⟨rfl, h.residual, fun hc => ?_⟩
  simp [terminated, hc] at ht

theorem Tied.trusted (h : it.Tied P (tie P)) (hs : P.system = S) : it.Trusted S o tie :=
  ⟨h.problem ▸ hs, h.problem.symm ▸ h.residual, fun hc => absurd hc h.unclaimed⟩

theorem Trusted.tested (ho : m.options = o) (h : it.Trusted S o tie) :
    (it.tested m).Trusted S o tie := by
  subst ho
  obtain htested | ⟨-, code, hv, htested⟩ := tested_cases (m := m) it
  · rw [htested]
    exact h
  · rw [htested]
    refine ⟨h.system, h.residual, fun hc => ?_⟩
    obtain rfl : code = .success := hc
    exact verdict_success hv

/-- A step keeps a tie if its method does where the test lets it pass. -/
theorem wp_step_trusted (ho : m.options = o) (h : it.Trusted S o tie)
    (hadvance : (it.tested m).terminated = false →
      m.advance.wp (fun _ => Tied it.problem (tie it.problem)) broken it) :
    (step m).wp (fun _ => Trusted S o tie) broken it := by
  rw [wp_step_tested]
  split
  · exact h.tested ho
  · rename_i ht
    rw [lap, Act.wp_bind]
    refine (hadvance (by simpa using ht)).mono (fun _ x hx => ?_) fun _ _ hb => hb
    have hcounted : ({ x with stats := x.stats.countStep } : Iteration α n σ).Tied it.problem
        (tie it.problem) := ⟨hx.problem, hx.residual, hx.unclaimed⟩
    exact (hcounted.trusted h.system).tested ho

end Steps

def Earnest (o : Options α) (P : Problem α n) (u fu : Vec α n) : Prop :=
  Scalar.isFinite (o.norm.of fu) = true ∧ o.norm.of fu ≤ o.tolerance → P.Shows u fu

end Iteration

open Iteration

namespace Algorithm

variable [Scalar α] {a : Algorithm α} {o : Options α} {P : Problem α n} {S : System α n}
  {it : Iteration α n (a.Memory n)}

section Current

/-- All parts of a step leave a residual that is current where there is one. -/
theorem stable_admits (hw : P.system.Overwrites) :
    Stable (fun x r => P.residual x = .ok r) (Tied (σ := σ) P P.Admits) where
  toTrying := trying_tied fun h => Problem.Shows.admits h
  moveTo x := by
    apply Act.keeps_of_wp
    intro it h
    refine (wp_moveTo_into (h.problem ▸ hw) x).mono (fun _ z hz => ?_) fun e z hz => ?_
    · obtain ⟨r, hr, rfl⟩ := hz
      exact ⟨h.problem, Problem.Shows.admits (h.problem ▸ hr), h.unclaimed⟩
    · obtain ⟨hf, rfl⟩ := hz
      exact ⟨h.problem, Problem.admits_of_error (Problem.residual_of_some (h.problem ▸ hf)),
        h.unclaimed⟩

theorem keeps_step_admits (ha : a.BuiltIn) (hw : S.Overwrites) :
    (step (a.method o n)).Keeps (Trusted S o Problem.Admits) := by
  apply Act.keeps_of_wp
  intro it h
  refine wp_step_trusted (a.method_options o) h fun ht => ?_
  have hkeeps : (a.method o n).advance.Keeps (Tied it.problem it.problem.Admits) :=
    keeps_advance ha o (stable_admits (h.system ▸ hw))
  exact (hkeeps.wp (h.tied (tested_eq_self ht).1)).mono (fun _ _ hx => hx)
    fun _ _ hx => hx.trusted h.system

end Current

section Shown

/-- A method that moves leaves the residual of its point behind, or raises what the system raises
there. -/
theorem moving_shows (hw : P.system.Overwrites) :
    Moving (Tied (σ := σ) P P.Shows) (Tied P P.Shows)
      fun e x => x.Tied P P.Shows ∨ x.problem.residual x.u = .error e where
  before := resting_tied
  after := resting_tied
  stays := id
  raises := .inl
  moveTo x it h := by
    refine (wp_moveTo_into (h.problem ▸ hw) x).mono (fun _ z hz => ?_) fun e z hz => ?_
    · obtain ⟨r, hr, rfl⟩ := hz
      exact ⟨h.problem, h.problem ▸ hr, h.unclaimed⟩
    · obtain ⟨hf, rfl⟩ := hz
      exact .inr (Problem.residual_of_some hf)

theorem wp_step_shows (ha : a.BuiltIn) (hw : S.Overwrites) (h : it.Trusted S o Problem.Shows) :
    (step (a.method o n)).wp (fun _ => Trusted S o Problem.Shows)
      (fun e x => x.Trusted S o Problem.Shows ∨
        a.Moves ∧ x.problem.residual x.u = .error e) it := by
  refine wp_step_trusted (a.method_options o) h fun ht => ?_
  have htied := h.tied (tested_eq_self ht).1
  by_cases hm : a.Moves
  · refine (wp_advance_moving hm o (moving_shows (h.system ▸ hw)) htied).mono (fun _ _ hx => hx)
      fun e x hx => ?_
    exact hx.imp (fun hx => hx.trusted h.system) fun he => ⟨hm, he⟩
  · have hkeeps : (a.method o n).advance.Keeps (Tied it.problem it.problem.Shows) :=
      keeps_advance_trying ha hm o (trying_tied id)
    exact (hkeeps.wp htied).mono (fun _ _ hx => hx) fun _ _ hx => .inl (hx.trusted h.system)

end Shown

section Earnest

/-- A move that raises leaves the residual where it was, unless the system writes in place. -/
theorem moving_left (hw : P.system.Overwrites) (hs : P.system.isInPlace = false)
    (fu : Vec α n) : Moving (Tied (σ := σ) P fun _ r => r = fu)
      (Tied P fun x r => r ≠ fu → P.Shows x r) fun _ => Tied P fun x r => r ≠ fu → P.Shows x r where
  before := resting_tied
  after := resting_tied
  stays h := h.imp fun hr hne => absurd hr hne
  raises := id
  moveTo x it h := by
    refine (wp_moveTo_into (h.problem ▸ hw) x).mono (fun _ z hz => ?_) fun e z hz => ?_
    · obtain ⟨r, hr, rfl⟩ := hz
      exact ⟨h.problem, fun _ => h.problem ▸ hr, h.unclaimed⟩
    · obtain ⟨hf, rfl⟩ := hz
      have hleft := Problem.residualInto_array_of_some (h.problem ▸ hs) hf
      exact ⟨h.problem, fun hne => absurd (hleft.trans h.residual) hne, h.unclaimed⟩

/-- Until a step has moved on, its residual is the one that did not pass for a success. -/
theorem keeps_step_earnest (ha : a.BuiltIn) (hw : S.Overwrites) (hs : S.isInPlace = false) :
    (step (a.method o n)).Keeps (Trusted S o (Earnest o)) := by
  apply Act.keeps_of_wp
  intro it h
  refine wp_step_trusted (a.method_options o) h fun ht => ?_
  -- The test let the residual pass, so nothing is claimed as long as it stays where it was.
  have hn : ¬ it.Converged o := by
    have hn := not_converged_of_running ht
    rwa [a.method_options] at hn
  have hearnest : ∀ {x : Iteration α n (a.Memory n)},
      (x.Tied it.problem fun u r => r ≠ it.fu → it.problem.Shows u r) →
      x.Tied it.problem (Earnest o it.problem) := fun hx => hx.imp fun hr hc =>
    hr fun he => hn (Converged.of_fu hc he)
  have hstart : it.Tied it.problem fun _ r => r = it.fu :=
    (h.tied (tested_eq_self ht).1).imp fun _ => rfl
  by_cases hm : a.Moves
  · have hmoving := moving_left (σ := a.Memory n) (h.system ▸ hw) (h.system ▸ hs) it.fu
    exact (wp_advance_moving hm o hmoving hstart).mono (fun _ _ hx => hearnest hx)
      fun _ _ hx => (hearnest hx).trusted h.system
  · have hkeeps : (a.method o n).advance.Keeps
        (Tied it.problem fun u r => r ≠ it.fu → it.problem.Shows u r) :=
      keeps_advance_trying ha hm o (trying_tied fun hr _ => hr)
    exact (hkeeps.wp (hstart.imp fun hr hne => absurd hr hne)).mono
      (fun _ _ hx => hearnest hx) fun _ _ hx => (hearnest hx).trusted h.system

end Earnest

end Algorithm

/-- A run that shows the residual at its point, and claims success of a finite residual norm within
the tolerance only. -/
structure Run.Honest [Scalar α] (o : Options α) (r : Run α n) : Prop where
  residual : r.problem.residual r.u = .ok r.resid
  success : r.code = .success →
    Scalar.isFinite (o.norm.of r.resid) = true ∧ o.norm.of r.resid ≤ o.tolerance

namespace Session

/-- The system can be evaluated at the stored point, and the stored residual is its value there. -/
def Faithful [Scalar α] (s : Session α n) : Prop :=
  s.problem.residual s.iteration.u = .ok s.iteration.fu

/-- Asking to start over. -/
def Request.Restarts : Request → Prop
  | .reinit .. => True
  | _ => False

variable {S : System Float n} {a : Algorithm Float} {o : Options Float} {s s' : Session Float n}
  {r : Request} {e : Fault Float}

/-- A request raises what the system raises at the point that it leaves behind. -/
def Strands (s : Session Float n) (r : Request) : Prop :=
  ∃ e, ((serve r).run s).result = .error e ∧
    ((serve r).run s).state.problem.residual ((serve r).run s).state.iteration.u = .error e

structure Trusted (a : Algorithm Float) (o : Options Float) (S : System Float n)
    (tie : Problem Float n → Vec Float n → Vec Float n → Prop) (s : Session Float n) : Prop where
  algorithm : s.algorithm = a
  options : s.options = o
  iteration : s.iteration.Trusted S o tie

variable {tie tie' : Problem Float n → Vec Float n → Vec Float n → Prop}

theorem Trusted.imp (h : s.Trusted a o S tie)
    (ht : tie s.problem s.iteration.u s.iteration.fu →
      tie' s.problem s.iteration.u s.iteration.fu) : s.Trusted a o S tie' :=
  ⟨h.algorithm, h.options, h.iteration.imp ht⟩

/-- A step or a solve leads to what steps lead to. -/
theorem wp_serve_driven (hr : r = .step ∨ r = .solve)
    {G : Iteration Float n (s.algorithm.Memory n) → Prop}
    {broken : Fault Float → Iteration Float n (s.algorithm.Memory n) → Prop}
    (hstep : ∀ it, G it → (Iteration.step s.method).wp (fun _ => G) broken it)
    (hs : G s.iteration) :
    (serve r).wp (fun _ s' => ∃ it, G it ∧ s' = { s with iteration := it })
      (fun e s' => ∃ it, broken e it ∧ s' = { s with iteration := it }) s := by
  obtain rfl | rfl := hr
  · rw [serve, Act.wp_bind, step, wp_on]
    exact (hstep _ hs).mono (fun _ it hit => ⟨it, hit, rfl⟩) fun _ it hit => ⟨it, hit, rfl⟩
  · rw [serve, Act.wp_bind, solve, wp_on]
    exact (wp_solve_of_step hstep hs).mono (fun _ it hit => ⟨it, hit, rfl⟩)
      fun _ it hit => ⟨it, hit, rfl⟩

theorem keeps_serve_driven (hr : r = .step ∨ r = .solve)
    (hstep : (Iteration.step (a.method o n)).Keeps (Iteration.Trusted S o tie)) :
    (serve r).Keeps (Trusted a o S tie) := by
  apply Act.keeps_of_wp
  intro s h
  obtain ⟨rfl, rfl, hit⟩ := h
  refine (wp_serve_driven hr (fun it hit => hstep.wp hit) hit).mono ?_ ?_
  · rintro _ _ ⟨it, hit, rfl⟩
    exact ⟨rfl, rfl, hit⟩
  · rintro _ _ ⟨it, hit, rfl⟩
    exact ⟨rfl, rfl, hit⟩

/-- Started over, a session shows the residual at the new starting point. -/
theorem StartedOver.trusted (h : s.StartedOver s') (hs : s.Trusted a o S tie)
    (hw : S.Overwrites) : s'.Trusted a o S Problem.Shows := by
  obtain ⟨P, hP, hf, rfl⟩ := h
  have hsystem : P.system = S := hP.trans hs.iteration.system
  exact ⟨hs.algorithm, hs.options, hsystem, Problem.residual_of_none (hsystem ▸ hw) hf, nofun⟩

/-- Where that raises, nothing is claimed of the point. -/
theorem StrandedBy.residual (h : s.StrandedBy e s') :
    s'.problem.residual s'.iteration.u = .error e := by
  obtain ⟨P, -, hf, rfl⟩ := h
  exact Problem.residual_of_some hf

theorem StrandedBy.trusted (h : s.StrandedBy e s') (hs : s.Trusted a o S tie)
    (ht : tie' s'.problem s'.iteration.u s'.iteration.fu) : s'.Trusted a o S tie' := by
  obtain ⟨P, hP, -, rfl⟩ := h
  exact ⟨hs.algorithm, hs.options, hP.trans hs.iteration.system, ht, nofun⟩

theorem StrandedBy.fu (h : s.StrandedBy e s') (hs : s.problem.system.isInPlace = false) :
    s'.iteration.fu = s.iteration.fu := by
  obtain ⟨P, hP, hf, rfl⟩ := h
  exact Problem.residualInto_array_of_some (hP ▸ hs) hf

variable (ha : a.BuiltIn) (hw : S.Overwrites)

include ha hw

/-- Whatever is raised, a residual that is not that of the point is at one without a residual. -/
theorem keeps_serve_admits (r : Request) :
    (serve r).Keeps (Trusted a o S Problem.Admits) := by
  have hstep := Algorithm.keeps_step_admits (o := o) ha hw
  cases r with
  | step => exact keeps_serve_driven (.inl rfl) hstep
  | solve => exact keeps_serve_driven (.inr rfl) hstep
  | reinit start parameter =>
    refine Act.Keeps.bind (Act.keeps_of_wp fun s h => ?_) fun _ => Act.keeps_pure _
    refine (s.wp_reinitAt_begun start parameter).mono (fun _ s' hs => ?_) fun e s' hs => ?_
    · exact (hs.trusted h hw).imp Problem.Shows.admits
    · obtain rfl | hs := hs
      · exact h
      · exact hs.trusted h (Problem.admits_of_error hs.residual)

/-- A call that raises leaves the residual of its point behind, unless it has moved to a point
where the system raises the same. -/
theorem wp_serve_shows (h : s.Trusted a o S Problem.Shows) (r : Request) :
    (serve r).wp (fun _ => Trusted a o S Problem.Shows)
      (fun e s' => s'.Trusted a o S Problem.Shows ∨
        (r.Restarts ∨ a.Moves) ∧ s'.problem.residual s'.iteration.u = .error e) s := by
  have hdriven : ∀ {q : Request}, q = .step ∨ q = .solve →
      (serve q).wp (fun _ => Trusted a o S Problem.Shows)
        (fun e s' => s'.Trusted a o S Problem.Shows ∨
          (q.Restarts ∨ a.Moves) ∧ s'.problem.residual s'.iteration.u = .error e) s := by
    intro q hq
    obtain ⟨rfl, rfl, hit⟩ := h
    refine (wp_serve_driven hq (fun it hit => Algorithm.wp_step_shows ha hw hit) hit).mono ?_ ?_
    · rintro _ _ ⟨it, hit, rfl⟩
      exact ⟨rfl, rfl, hit⟩
    · rintro e _ ⟨it, hit | ⟨hm, he⟩, rfl⟩
      · exact .inl ⟨rfl, rfl, hit⟩
      · exact .inr ⟨.inr hm, he⟩
  cases r with
  | step => exact hdriven (.inl rfl)
  | solve => exact hdriven (.inr rfl)
  | reinit start parameter =>
    rw [serve, Act.wp_bind]
    refine (s.wp_reinitAt_begun start parameter).mono (fun _ s' hs => hs.trusted h hw)
      fun e s' hs => ?_
    obtain rfl | hs := hs
    · exact .inl h
    · exact .inr ⟨.inl trivial, hs.residual⟩

/-- A request strands a session or leaves it with the residual of its point. -/
theorem Trusted.serve_cases (h : s.Trusted a o S Problem.Shows) (r : Request) :
    ¬ s.Strands r ∧ ((serve r).run s).state.Trusted a o S Problem.Shows ∨
      s.Strands r ∧ (r.Restarts ∨ a.Moves) ∧ ¬ ((serve r).run s).state.Faithful := by
  have hserve := wp_serve_shows ha hw h r
  have hleft : ((serve r).run s).state.Trusted a o S Problem.Shows → ¬ s.Strands r := by
    rintro hs ⟨e, -, he⟩
    exact nomatch (Eq.symm hs.iteration.residual).trans he
  cases hres : ((serve r).run s).result with
  | ok b => exact .inl ⟨hleft (hserve.of_ok hres), hserve.of_ok hres⟩
  | error e =>
    obtain hs | ⟨hm, he⟩ := hserve.of_error hres
    · exact .inl ⟨hleft hs, hs⟩
    · exact .inr ⟨⟨e, hres, he⟩, hm, fun hf => nomatch (Eq.symm hf).trans he⟩

/-- A residual that would pass for a success is shown at its point, if that was not given up for one
where the system raises. -/
theorem serve_earnest (hs : S.isInPlace = false) (h : s.Trusted a o S (Earnest o))
    (hr : r.Restarts → s.Strands r → ¬ s.Converged) :
    ((serve r).run s).state.Trusted a o S (Earnest o) := by
  have hstep := Algorithm.keeps_step_earnest (o := o) ha hw hs
  cases r with
  | step => exact keeps_serve_driven (.inl rfl) hstep s h
  | solve => exact keeps_serve_driven (.inr rfl) hstep s h
  | reinit start parameter =>
    have hreinit : (serve (.reinit start parameter)).wp (fun _ => s.StartedOver)
        (fun e s' => s' = s ∨ s.StrandedBy e s') s := by
      rw [serve, Act.wp_bind]
      exact s.wp_reinitAt_begun start parameter
    cases hres : ((serve (.reinit start parameter)).run s).result with
    | ok b =>
      exact ((hreinit.of_ok hres).trusted h hw).imp fun hshows _ => hshows
    | error e =>
      obtain hsame | hstranded := hreinit.of_error hres
      · rw [hsame]
        exact h
      · -- Left beside a new point, the old residual would only pass if it passed before.
        have hn := hr trivial ⟨e, hres, hstranded.residual⟩
        refine hstranded.trusted h fun hc => absurd ?_ hn
        rw [hstranded.fu (h.iteration.system ▸ hs)] at hc
        rw [Session.Converged, h.options]
        exact hc

end Session

section Histories

variable {call : Call} {problem : Problem Float n} {c : Candidate} {s₀ s : Session Float n}

/-- A candidate is set to work with the residual at the starting point. -/
theorem Candidate.Started.trusted [LinearRoutines Float] (h : c.Started call problem s₀)
    (hw : problem.system.Overwrites) :
    s₀.Trusted c.algorithm s₀.options problem.system Problem.Shows := by
  obtain ⟨hf, hit⟩ := h.begun
  refine ⟨h.algorithm, rfl, ?_⟩
  rw [hit]
  exact ⟨rfl, Problem.residual_of_none hw hf, nofun⟩

/-- A solve that returns hands out the session as it leaves it. -/
theorem Session.Trusted.honest {a : Algorithm Float} {o : Options Float} {S : System Float n}
    {tie : Problem Float n → Vec Float n → Vec Float n → Prop} (h : s.driven.Trusted a o S tie)
    {run : Run Float n} (hr : s.outcome = .ok run) (hf : s.driven.Faithful) :
    run.Honest s.options := by
  obtain ⟨-, rfl, hit⟩ := h
  obtain rfl := Session.outcome_snapshot hr
  exact ⟨hf, hit.success⟩

/-- A solve that returns does not strand the session. -/
theorem Session.not_strands_of_outcome {run : Run Float n} (h : s.outcome = .ok run) :
    ¬ s.Strands .solve := by
  rintro ⟨e, he, -⟩
  rw [Session.run_serve_solve] at he
  rw [Session.outcome] at h
  rw [h] at he
  cases he

end Histories

/-- What is left behind where the system raises. Whatever is asked of the session of a candidate,
and whatever is raised meanwhile, a success was tested, and where the system can be evaluated at the
stored point, the stored residual is its value there. A call that finds it so leaves it so, unless it
raises what the system raises at the point that it has moved to, which only starting over and the
steps without trial points do. As long as no call does, every run that is handed out shows the
residual at its point. If the system does not write in place, every run that succeeds does, as long
as starting over from a converged point does not strand the session. -/
theorem sessions_outlast_raising [LinearRoutines Float] {n : Nat} {call : Call}
    {problem : Problem Float n} {c : Candidate} (hc : c.BuiltIn) (hw : problem.system.Overwrites)
    {s₀ : Session Float n} (h₀ : ((c.init call problem).run ()).result = .ok s₀) :
    (∀ s, Act.Reached Session.serve (fun _ => True) s₀ s →
      (s.iteration.code = .success → s.Converged) ∧
      (∀ fu, s.problem.residual s.iteration.u = .ok fu → s.iteration.fu = fu) ∧
      (s.Faithful → ∀ r, (((Session.serve r).run s).state.Faithful ↔ ¬ s.Strands r) ∧
        (s.Strands r → r.Restarts ∨ c.algorithm.Moves))) ∧
    (∀ rs s, Act.Served Session.serve (fun s r => ¬ s.Strands r) s₀ rs s →
      s.Faithful ∧ ∀ run, s.outcome = .ok run → run.Honest s.options) ∧
    (problem.system.isInPlace = false → ∀ rs s,
      Act.Served Session.serve (fun s r => r.Restarts → s.Strands r → ¬ s.Converged) s₀ rs s →
        (s.Converged → s.Faithful) ∧
        ∀ run, s.outcome = .ok run → run.code = .success → run.Honest s.options) := by
  have h₀' := (Candidate.started h₀).trusted hw
  refine ⟨fun s h => ?_, fun rs s h => ?_, fun hs rs s h => ?_⟩
  · have ht : s.Trusted c.algorithm s₀.options problem.system Problem.Admits :=
      h.keeps (h₀'.imp Problem.Shows.admits) fun r _ => Session.keeps_serve_admits hc hw r
    have hsuccess : s.iteration.code = .success → s.Converged := by
      rw [Session.Converged, ht.options]
      exact ht.iteration.success
    refine ⟨hsuccess, ht.iteration.residual, fun hf r => ?_⟩
    obtain ⟨hn, hs⟩ | ⟨hs, hm, hf'⟩ := (ht.imp fun _ => hf).serve_cases hc hw r
    · exact ⟨⟨fun _ => hn, fun _ => hs.iteration.residual⟩, fun hs' => absurd hs' hn⟩
    · exact ⟨⟨fun hf => absurd hf hf', fun hn => absurd hs hn⟩, fun _ => hm⟩
  · have hserve : ∀ s r, s.Trusted c.algorithm s₀.options problem.system Problem.Shows →
        ¬ s.Strands r →
        ((Session.serve r).run s).state.Trusted c.algorithm s₀.options problem.system
          Problem.Shows := fun s r ht hn =>
      ((ht.serve_cases hc hw r).resolve_right fun hs => hn hs.1).2
    have ht := h.keeps h₀' hserve
    refine ⟨ht.iteration.residual, fun run hrun => ?_⟩
    have ht' := hserve s .solve ht (Session.not_strands_of_outcome hrun)
    rw [Session.run_serve_solve] at ht'
    exact ht'.honest hrun ht'.iteration.residual
  · have ht : s.Trusted c.algorithm s₀.options problem.system (Earnest s₀.options) :=
      h.keeps (h₀'.imp fun hshows _ => hshows) fun s r ht hr =>
        Session.serve_earnest hc hw hs ht hr
    refine ⟨fun hconverged => ?_, fun run hrun hcode => ?_⟩
    · rw [Session.Converged, ht.options] at hconverged
      exact ht.iteration.residual hconverged
    · have ht' := Session.serve_earnest (r := .solve) hc hw hs ht fun hr => hr.elim
      rw [Session.run_serve_solve] at ht'
      rw [Session.outcome_snapshot hrun] at hcode
      exact ht'.honest hrun (ht'.iteration.residual (ht'.iteration.success hcode))

/-- A parabola that is not defined beyond a point. -/
def brink : Problem Float 1 :=
  ⟨.outOfPlace
    (fun u _ => if u.toList.all (· ≤ 3.0) then .ok (u.map fun x => x * x - 2.0)
      else .error (.raised .runtime "out of domain"))
    (some fun u _ => .ok (u.map fun x => .replicate 1 (2.0 * x))), .replicate 1 0.1, .absent⟩

/-- A first step that leads beyond the brink, and a run that starts over. -/
theorem sessions_outlast_raising_brink : ∃ s₀ s : Session Float 1, ∃ run,
    (((Candidate.newton none Settings.initial).init .plain brink).run ()).result = .ok s₀ ∧
    s₀.Strands .step ∧
    Act.Served Session.serve (fun s r => r.Restarts → s.Strands r → ¬ s.Converged) s₀
      [.step, .reinit (.num 1.0) none] s ∧
    s.outcome = .ok run ∧ run.code = .success ∧ run.Honest s.options := by
  have hrun : (((Candidate.newton none Settings.initial).init .plain brink).run
      ()).result.toOption.map (fun s₀ =>
        let s₁ := ((Session.serve .step).run s₀).state
        let s := ((Session.serve (.reinit (.num 1.0) none)).run s₁).state
        ((s₁.problem.residual s₁.iteration.u).isOk,
          ((Session.serve (.reinit (.num 1.0) none)).run s₁).result.isOk,
          s.outcome.toOption.map Run.code)) = some (false, true, some .success) := by
    decide +kernel
  cases h₀ : (((Candidate.newton none Settings.initial).init .plain brink).run ()).result with
  | error e => rw [h₀] at hrun; cases hrun
  | ok s₀ =>
    rw [h₀] at hrun
    simp only [Except.toOption, Option.map_some, Option.some.injEq, Prod.mk.injEq] at hrun
    obtain ⟨hbeyond, hgranted, hcode⟩ := hrun
    have hw : brink.system.Overwrites := trivial
    obtain ⟨hevery, hwhole, hplain⟩ :=
      sessions_outlast_raising (c := .newton none Settings.initial) trivial hw h₀
    obtain ⟨hfaithful, -⟩ := hwhole [] s₀ (.none s₀)
    obtain ⟨-, -, hstep⟩ := hevery s₀ .start
    obtain ⟨hiff, -⟩ := hstep hfaithful .step
    have hstrands : s₀.Strands .step := by
      by_contra hn
      rw [hiff.mpr hn] at hbeyond
      cases hbeyond
    have hback : ¬ ((Session.serve .step).run s₀).state.Strands (.reinit (.num 1.0) none) := by
      rintro ⟨e, he, -⟩
      rw [he] at hgranted
      cases hgranted
    have hserved : Act.Served Session.serve (fun s r => r.Restarts → s.Strands r → ¬ s.Converged)
        s₀ [.step, .reinit (.num 1.0) none] _ :=
      .more (fun hs => hs.elim) (.more (fun _ hs => absurd hs hback) (.none _))
    obtain ⟨-, hsuccess⟩ := hplain rfl _ _ hserved
    generalize ((Session.serve (.reinit (.num 1.0) none)).run
      ((Session.serve .step).run s₀).state).state = s at hserved hsuccess hcode
    cases ho : s.outcome with
    | error e => rw [ho] at hcode; cases hcode
    | ok run =>
      rw [ho] at hcode
      exact ⟨s₀, s, run, rfl, hstrands, hserved, ho, Option.some.inj hcode,
        hsuccess run ho (Option.some.inj hcode)⟩

/-- A line that is not defined beyond a point. -/
def cliff : Problem Float 1 :=
  ⟨.outOfPlace
    (fun u _ => if u.toList.all (· ≤ 5.0) then .ok (u.map fun x => x - 1.0)
      else .error (.raised .runtime "boom")) none, .replicate 1 2.0, .absent⟩

/-- A run that is started over beyond the cliff, and claims success there. -/
theorem stranded_run_succeeds : ∃ s₀ s : Session Float 1, ∃ run,
    (((Candidate.newton none Settings.initial).init .plain cliff).run ()).result = .ok s₀ ∧
    Act.Served Session.serve (fun _ _ => True) s₀ [.solve, .reinit (.num 9.0) none] s ∧
    s.outcome = .ok run ∧ run.code = .success ∧
    ∃ e, run.problem.residual run.u = .error e := by
  have hrun : (((Candidate.newton none Settings.initial).init .plain cliff).run
      ()).result.toOption.map (fun s₀ =>
        let s₁ := ((Session.serve .solve).run s₀).state
        let s := ((Session.serve (.reinit (.num 9.0) none)).run s₁).state
        s.outcome.toOption.map fun run =>
          (run.code, (run.problem.residual run.u).isOk)) = some (some (.success, false)) := by
    decide +kernel
  cases h₀ : (((Candidate.newton none Settings.initial).init .plain cliff).run ()).result with
  | error e => rw [h₀] at hrun; cases hrun
  | ok s₀ =>
    rw [h₀] at hrun
    simp only [Except.toOption, Option.map_some, Option.some.injEq] at hrun
    have hserved : Act.Served Session.serve (fun _ _ => True) s₀
        [.solve, .reinit (.num 9.0) none] _ := .more trivial (.more trivial (.none _))
    generalize ((Session.serve (.reinit (.num 9.0) none)).run
      ((Session.serve .solve).run s₀).state).state = s at hserved hrun
    cases ho : s.outcome with
    | error e => rw [ho] at hrun; cases hrun
    | ok run =>
      rw [ho] at hrun
      obtain ⟨hcode, hresidual⟩ := Prod.mk.inj (Option.some.inj hrun)
      cases hr : run.problem.residual run.u with
      | error e => exact ⟨s₀, s, run, rfl, hserved, ho, hcode, e, hr⟩
      | ok fu =>
        rw [hr] at hresidual
        cases hresidual

end Rootfinder
