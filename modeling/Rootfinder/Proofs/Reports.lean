import Rootfinder.Linear.Textbook
import Rootfinder.Proofs.Soundness

namespace Rootfinder

theorem Session.wp_solve_snapshot {α : Type} [Scalar α] {n : Nat} (s : Session α n) :
    Session.solve.wp (fun r s' => r = s'.snapshot) (fun _ _ => True) s := by
  refine (Act.wp_self _ _).mono ?_ fun _ _ _ => trivial
  intro r s' h
  obtain ⟨hr, rfl⟩ := h
  exact Session.outcome_snapshot hr

theorem Session.wp_serve {n : Nat} (r : Request) (s : Session Float n) :
    (serve r).wp (fun a s' => ∀ sol ∈ a, sol = s'.snapshot.toSolution) (fun _ _ => True) s := by
  cases r with
  | solve =>
    rw [serve, Act.wp_bind]
    refine s.wp_solve_snapshot.mono (fun r s' hr sol h => ?_) fun _ _ h => h
    subst hr
    exact (Option.some.inj h).symm
  | _ =>
    rw [serve, Act.wp_bind]
    exact Act.wp_of_forall _ (fun _ _ sol h => by cases h) fun _ _ => trivial

namespace Warm

section Shown

variable {α β : Type} [Scalar α] {n : Nat} {w : Warm α n}

/-- What a call on any session tells of it, a call on the session at a place tells of that one. -/
theorem wp_on_some {R : β → Session α n → Prop} {x : Act α (Session α n) β}
    (hx : ∀ s, x.wp R (fun _ _ => True) s) (i : Nat) :
    (on i x).wp (fun b w' => ∃ s ∈ w'.sessions, R b s) (fun _ _ => True) w := by
  cases hs : w.sessions[i]? with
  | none =>
    rw [wp_on_none hs]
    trivial
  | some s =>
    have hlt := (List.getElem?_eq_some_iff.mp hs).1
    rw [wp_on hs]
    exact (hx s).mono (fun b t ht => ⟨t, List.mem_set hlt t, ht⟩) fun _ _ _ => trivial

theorem wp_performStep : performStep.wp (fun r w' => ∃ s ∈ w'.sessions, r = s.snapshot)
    (fun _ _ => True) w := by
  rw [performStep, Act.wp_bind, Act.wp_read]
  exact wp_on_some Session.wp_solve_snapshot _

/-- The run that a drive ends with is that of a session, and it succeeded. -/
theorem wp_drive (norm : Norm α) (left : Nat) (records : List (AttemptRecord α)) :
    (drive norm left records).wp (fun driven w' => ∀ i r, driven.1 = some (i, r) →
      r.success = true ∧ ∃ s ∈ w'.sessions, r = s.snapshot) (fun _ _ => True) w := by
  induction left generalizing w records with
  | zero => intro i r h; cases h
  | succ left ih =>
    rw [drive, Act.wp_bind, Act.wp_read, Act.wp_bind]
    refine wp_performStep.mono (fun r w' hr => ?_) fun _ _ h => h
    rw [Act.wp_bind, AttemptRecord.wp_report]
    split
    · rename_i hw
      intro i r' h
      obtain ⟨rfl, rfl⟩ := Prod.mk.inj (Option.some.inj h)
      exact ⟨hw, hr⟩
    · rw [Act.wp_bind, Act.wp_update]
      exact ih _

theorem wp_solve_shows : solve.wp (fun sol w' => w'.Shows sol) (fun _ _ => True) w := by
  rw [wp_solve]
  refine (wp_drive _ _ _).mono ?_ fun _ _ h => h
  intro driven after h
  obtain ⟨- | ⟨i, r⟩, records⟩ := driven
  · cases hb : Selection.selectBest (fun s : Session α n => s.residualNorm (some w.norm))
      after.sessions with
    | error e =>
      rw [conclude, Act.wp_bind, Act.wp_read, hb]
      trivial
    | ok b =>
      obtain ⟨b, s⟩ := b
      rw [wp_conclude_lost hb]
      exact .chosen (List.mem_of_getElem? (Selection.selectBest_getElem? hb)) _ _ _
        fun hc => by cases hc
  · obtain ⟨hw, s, hs, rfl⟩ := h i r rfl
    exact .chosen hs _ _ _ fun _ => eq_of_beq hw

end Shown

/-- Whatever is answered shows a session as the call left it. -/
theorem wp_serve {n : Nat} (r : Request) (w : Warm Float n) :
    (serve r).wp (fun a w' => ∀ sol ∈ a, w'.Shows sol) (fun _ _ => True) w := by
  have hnone : ∀ w' : Warm Float n, ∀ sol ∈ (none : Option (Solution Float n)), w'.Shows sol :=
    fun _ _ h => by cases h
  cases r with
  | performStep =>
    rw [serve, Act.wp_bind]
    refine wp_performStep.mono ?_ fun _ _ h => h
    intro r w' hr sol h
    obtain ⟨s, hs, rfl⟩ := hr
    obtain rfl := Option.some.inj h
    exact .single hs
  | solve =>
    rw [serve, Act.wp_bind]
    refine wp_solve_shows.mono (fun sol w' hs sol' h => ?_) fun _ _ h => h
    obtain rfl := Option.some.inj h
    exact hs
  | setCurrent value =>
    rw [serve, Act.wp_bind]
    exact Act.wp_of_forall _ (fun _ => hnone) fun _ _ => trivial
  | reinit start parameter =>
    rw [serve, Act.wp_bind]
    exact Act.wp_of_forall _ (fun _ => hnone) fun _ _ => trivial
  | one place request =>
    rw [serve]
    refine (wp_on_some (Session.wp_serve request) place).mono ?_ fun _ _ h => h
    intro a w' hw sol h
    obtain ⟨s, hs, ha⟩ := hw
    rw [ha sol h]
    exact .single hs

end Warm

section Requests

variable {n : Nat} {F : Vec Float n → Parameter Float → Vec Float n} {o : Options Float}

theorem Session.keeps_serve (r : Request) :
    (serve r : Act Float (Session Float n) _).Keeps (Sound F o) :=
  keeps_request keeps_step_sound keeps_solve_sound (fun start parameter =>
    keeps_reinitAt (fun xs => keeps_reinit_sound xs parameter) start) r

theorem Session.reached_sound {s₀ s : Session Float n} (h₀ : s₀.Sound F o)
    (h : Act.Reached serve (fun _ => True) s₀ s) :
    s.Sound F o ∧ ∀ r sol, ((serve r).run s).result = .ok (some sol) → sol.Sound F o := by
  have hs : s.Sound F o := h.keeps h₀ fun r _ => keeps_serve r
  refine ⟨hs, fun r sol ha => ?_⟩
  rw [(wp_serve r s).of_ok ha sol rfl]
  exact (keeps_serve r s hs).snapshot

namespace Warm

theorem keeps_serve (r : Request) :
    (serve r : Act Float (Warm Float n) _).Keeps (All (Session.Sound F o)) := by
  cases r with
  | performStep =>
    exact (keeps_performStep (keeps_on Session.keeps_solve_sound)).bind fun _ => Act.keeps_pure _
  | solve =>
    exact (keeps_solve (keeps_on Session.keeps_solve_sound) all_cursor).bind fun _ =>
      Act.keeps_pure _
  | setCurrent value => exact (keeps_setCurrent all_cursor value).bind fun _ => Act.keeps_pure _
  | reinit start parameter =>
    refine Act.Keeps.bind ?_ fun _ => Act.keeps_pure _
    exact keeps_reinitAt (fun xs => keeps_reinit (Session.keeps_reinit_sound xs parameter)) start
  | one place request => exact keeps_on (Session.keeps_serve request) place

/-- Unless a session is started over alone, they go on with one problem. -/
theorem keeps_serve_joint {r : Request} (hr : r.Joint) :
    (serve r : Act Float (Warm Float n) _).Keeps (Joint F o) := by
  cases r with
  | performStep =>
    exact (keeps_joint fun _ => keeps_performStep (keeps_on Session.keeps_solve_at)).bind fun _ =>
      Act.keeps_pure _
  | solve =>
    exact (keeps_joint fun _ => keeps_solve (keeps_on Session.keeps_solve_at) all_cursor).bind
      fun _ => Act.keeps_pure _
  | setCurrent value =>
    exact (keeps_joint fun _ => keeps_setCurrent all_cursor value).bind fun _ => Act.keeps_pure _
  | reinit start parameter =>
    refine Act.Keeps.bind ?_ fun _ => Act.keeps_pure _
    exact keeps_reinitAt (fun xs => keeps_reinit_joint xs parameter) start
  | one place request =>
    refine keeps_joint fun P => keeps_on ?_ place
    cases request with
    | step => exact Session.keeps_step_at.bind fun _ => Act.keeps_pure _
    | solve => exact Session.keeps_solve_at.bind fun _ => Act.keeps_pure _
    | reinit start parameter => exact hr.elim

variable {w₀ w : Warm Float n}

theorem reached_sound (h₀ : w₀.All (Session.Sound F o))
    (h : Act.Reached serve (fun _ => True) w₀ w) :
    w.All (Session.Sound F o) ∧ ∀ r sol, ((serve r).run w).result = .ok (some sol) →
      (∀ run ∈ sol.original, run.toSolution.Sound F o) ∧
      (sol.original = none → sol.Sound F o) := by
  have hw : w.All (Session.Sound F o) := h.keeps h₀ fun r _ => keeps_serve r
  refine ⟨hw, fun r sol ha => ?_⟩
  have hshows := (wp_serve r w).of_ok ha sol rfl
  exact hshows.original (keeps_serve r w hw)

theorem reached_joint (h₀ : w₀.Joint F o) (h : Act.Reached serve Request.Joint w₀ w)
    {r : Request} (hr : r.Joint) {sol : Solution Float n}
    (ha : ((serve r).run w).result = .ok (some sol)) : sol.Sound F o := by
  have hw : w.Joint F o := h.keeps h₀ fun r hr => keeps_serve_joint hr
  have hshows := (wp_serve r w).of_ok ha sol rfl
  exact hshows.sound (keeps_serve_joint hr w hw)

end Warm

end Requests

section Drivers

variable {n : Nat} {problem : Problem Float n} {F : Vec Float n → Parameter Float → Vec Float n}
  {call : Call} {o : Options Float}

namespace Candidate

structure Settled (F : Vec Float n → Parameter Float → Vec Float n) (o : Options Float)
    (problem : Problem Float n) (r : Run Float n) : Prop where
  problem : r.problem = problem
  sound : r.toSolution.Sound F o

theorem Settled.wrap {r : Run Float n} (h : Settled F o problem r) (owner : Solver) (i : Nat)
    (attempts : List (AttemptRecord Float)) :
    (r.wrap owner (some problem) i attempts r.code).Sound F o := by
  obtain ⟨rfl, ⟨P, hp, hF, hr⟩, hs⟩ := h
  obtain rfl := Option.some.inj hp
  exact ⟨⟨r.problem, rfl, hF, hr⟩, hs⟩

end Candidate

variable [LinearRoutines Float]

/-- The candidates that solve. -/
def Candidate.BuiltIn (c : Candidate) : Prop := c.algorithm.BuiltIn

/-- The presets hold no scripts. -/
theorem Polyalgorithm.builtIn_candidates (p : Polyalgorithm) (inPlace persistent : Bool) :
    ∀ c ∈ p.candidates inPlace persistent, c.BuiltIn := by
  intro c hc
  obtain ⟨preset, configuration⟩ := p
  cases c with
  | replay script c =>
    cases preset <;> cases persistent <;>
      simp [candidates, Preset.candidates, Preset.robustCandidates, Preset.fastCandidates,
        Preset.shortcuts, Preset.newton, Preset.damped, Candidate.customary] at hc
  | _ => trivial

namespace Candidate

/-- A candidate that is set to work on a system starts with the residual of its starting point. -/
theorem wp_init_sound (hF : problem.system.Computes F) (ho : call.options = .ok o) {c : Candidate}
    (hc : c.BuiltIn) : (c.init call problem).wp (fun s _ => s.SoundAt F o problem)
      (fun _ _ => True) () := by
  refine wp_init fun o' ho' => ?_
  obtain rfl : o' = o := Except.ok.inj (ho'.symm.trans ho)
  rw [Session.wp_start]
  refine (Iteration.wp_start hF o').mono ?_ fun _ _ h => h
  intro it _ h
  obtain ⟨hs, hp⟩ := h
  exact ⟨⟨hc, rfl, hs⟩, hp⟩

theorem wp_solve_settled (hF : problem.system.Computes F) (ho : call.options = .ok o)
    {c : Candidate} (hc : c.BuiltIn) :
    (c.solve call problem).wp (fun r _ => Settled F o problem r) (fun _ _ => True) () := by
  rw [solve, Act.wp_bind]
  refine (wp_init_sound hF ho hc).mono (fun s _ hs => ?_) fun _ _ h => h
  rw [Act.wp_within]
  refine (Act.wp_self _ _).mono ?_ fun _ _ _ => trivial
  intro r s' h
  obtain ⟨hr, rfl⟩ := h
  have hs' := Session.keeps_solve_at s hs
  rw [Session.outcome_snapshot hr]
  exact ⟨hs'.problem, hs'.toSound.snapshot⟩

end Candidate

theorem Fallback.Contest.wp_solveInOrder_sound (hF : problem.system.Computes F)
    (ho : call.options = .ok o) (owner : Solver) (norm : Norm Float) {cs : List Candidate}
    (hcs : ∀ c ∈ cs, c.BuiltIn) :
    ((⟨owner, problem, norm, fun c => c.solve call problem⟩ :
      Fallback.Contest Float n Candidate).solveInOrder cs).wp (fun sol _ => sol.Sound F o)
      (fun _ _ => True) [] := by
  refine (wp_solveInOrder (Candidate.Settled F o problem) (fun c hc => ?_) []).mono ?_
    fun _ _ h => h
  · exact Candidate.wp_solve_settled hF ho (hcs c hc)
  · intro sol _ h
    obtain ⟨r, i, attempts, hr, rfl⟩ := h
    exact hr.wrap owner i attempts

theorem Warm.joint_ofCandidates (hF : problem.system.Computes F) (ho : call.options = .ok o)
    {owner : Solver} {cs : List Candidate} (hcs : ∀ c ∈ cs, c.BuiltIn) {w : Warm Float n}
    (h : ((Warm.ofCandidates owner cs call problem).run ()).result = .ok w) : w.Joint F o := by
  refine ⟨problem, fun s hs => ?_⟩
  obtain ⟨c, hc, hst⟩ := (Warm.fresh_ofCandidates h).mem hs
  exact (Candidate.wp_init_sound hF ho (hcs c hc)).of_ok hst.returned

namespace Polyalgorithm

variable (hF : problem.system.Computes F) (ho : call.options = .ok o) (p : Polyalgorithm)

include hF ho

theorem wp_solveList_sound :
    (p.solveList call problem).wp (fun sol _ => sol.Sound F o) (fun _ _ => True) () := by
  rw [solveList, Act.wp_within]
  exact Fallback.Contest.wp_solveInOrder_sound hF ho _ _ (p.builtIn_candidates _ _)

theorem wp_solveFour_sound :
    (p.solveFour call problem).wp (fun sol _ => sol.Sound F o) (fun _ _ => True) () := by
  rw [solveFour, Act.wp_within, Fallback.Contest.solveFour_eq]
  exact Fallback.Contest.wp_solveInOrder_sound hF ho _ _
    ((⟨.fast, p.configuration⟩ : Polyalgorithm).builtIn_candidates true true)

theorem wp_solveWarm_sound :
    (p.solveWarm call problem).wp (fun sol _ => sol.Sound F o) (fun _ _ => True) () := by
  rw [solveWarm, Act.wp_bind]
  refine (Act.wp_self _ _).mono (fun w _ hw => ?_) fun _ _ _ => trivial
  have hj := Warm.joint_ofCandidates hF ho (p.builtIn_candidates _ _) hw.1
  rw [Act.wp_within]
  refine (Act.wp_self _ _).mono (fun sol _ hs => ?_) fun _ _ _ => trivial
  have hk := Warm.keeps_joint
    (fun _ => Warm.keeps_solve (Warm.keeps_on Session.keeps_solve_at) Warm.all_cursor) w hj
  exact (Warm.wp_solve_shows.of_ok hs.1).sound hk

theorem wp_solve_sound :
    (p.solve call problem).wp (fun sol _ => sol.Sound F o) (fun _ _ => True) () := by
  unfold solve
  cases p.preset with
  | robust => exact wp_solveWarm_sound hF ho p
  | fast =>
    dsimp only
    split
    · exact wp_solveFour_sound hF ho p
    · exact wp_solveList_sound hF ho p

end Polyalgorithm

/-- Of a system that is evaluated without faults, every solution shows the residual and every
success is tested: of candidates solved at once or asked in any order, of kept candidates, of the
drivers of fresh ones, and of polyalgorithms. In every state between calls the stored residual
belongs to the stored point. Where one of the kept sessions was started over alone, this holds of
the runs that solutions were made from. -/
theorem reports_sound (hF : problem.system.Computes F) (ho : call.options = .ok o) :
    (∀ c : Candidate, c.BuiltIn →
      (∀ run, ((c.solve call problem).run ()).result = .ok run → run.toSolution.Sound F o) ∧
      ∀ s₀, ((c.init call problem).run ()).result = .ok s₀ → ∀ s,
        Act.Reached (Session.serve (n := n)) (fun _ => True) s₀ s →
          s.iteration.Sound F o ∧
          ∀ r sol, ((Session.serve r).run s).result = .ok (some sol) → sol.Sound F o) ∧
    (∀ (owner : Solver) (cs : List Candidate), (∀ c ∈ cs, c.BuiltIn) → ∀ w₀,
      ((Warm.ofCandidates owner cs call problem).run ()).result = .ok w₀ → ∀ w,
        (Act.Reached (Warm.serve (n := n)) (fun _ => True) w₀ w →
          (∀ s ∈ w.sessions, s.iteration.Sound F o) ∧
          ∀ r sol, ((Warm.serve r).run w).result = .ok (some sol) →
            (∀ run ∈ sol.original, run.toSolution.Sound F o) ∧
            (sol.original = none → sol.Sound F o)) ∧
        (Act.Reached (Warm.serve (n := n)) Warm.Request.Joint w₀ w → ∀ r, r.Joint →
          ∀ sol, ((Warm.serve r).run w).result = .ok (some sol) → sol.Sound F o)) ∧
    (∀ (owner : Solver) (norm : Norm Float) (cs : List Candidate), (∀ c ∈ cs, c.BuiltIn) →
      let contest : Fallback.Contest Float n Candidate :=
        ⟨owner, problem, norm, fun c => c.solve call problem⟩
      (∀ sol, ((contest.solveInOrder cs).run []).result = .ok sol → sol.Sound F o) ∧
      ∀ c₁ c₂ c₃ c₄, cs = [c₁, c₂, c₃, c₄] →
        ∀ sol, ((contest.solveFour c₁ c₂ c₃ c₄).run []).result = .ok sol → sol.Sound F o) ∧
    ∀ p : Polyalgorithm,
      (∀ inPlace persistent, ∀ c ∈ p.candidates inPlace persistent, c.BuiltIn) ∧
      (∀ sol, ((p.solve call problem).run ()).result = .ok sol → sol.Sound F o) ∧
      (∀ sol, ((p.solveList call problem).run ()).result = .ok sol → sol.Sound F o) ∧
      ∀ sol, ((p.solveFour call problem).run ()).result = .ok sol → sol.Sound F o := by
  refine ⟨fun c hc => ⟨fun run hr => ?_, fun s₀ h₀ s hs => ?_⟩,
    fun owner cs hcs w₀ h₀ w => ⟨fun hw => ?_, fun hw r hr sol ha => ?_⟩,
    fun owner norm cs hcs => ⟨fun sol hs => ?_, ?_⟩,
    fun p => ⟨p.builtIn_candidates, fun sol hs => ?_, fun sol hs => ?_, fun sol hs => ?_⟩⟩
  · exact ((Candidate.wp_solve_settled hF ho hc).of_ok hr).sound
  · have hs₀ := (Candidate.wp_init_sound hF ho hc).of_ok h₀
    obtain ⟨hsound, hanswers⟩ := Session.reached_sound hs₀.toSound hs
    exact ⟨hsound.iteration, hanswers⟩
  · have hw₀ := Warm.joint_ofCandidates hF ho hcs h₀
    obtain ⟨hsound, hanswers⟩ := Warm.reached_sound hw₀.sound hw
    exact ⟨fun s hs => (hsound s hs).iteration, hanswers⟩
  · exact Warm.reached_joint (Warm.joint_ofCandidates hF ho hcs h₀) hw hr ha
  · exact (Fallback.Contest.wp_solveInOrder_sound hF ho owner norm hcs).of_ok hs
  · intro c₁ c₂ c₃ c₄ h sol hs
    subst h
    rw [Fallback.Contest.solveFour_eq] at hs
    exact (Fallback.Contest.wp_solveInOrder_sound hF ho owner norm hcs).of_ok hs
  · exact (p.wp_solve_sound hF ho).of_ok hs
  · exact (p.wp_solveList_sound hF ho).of_ok hs
  · exact (p.wp_solveFour_sound hF ho).of_ok hs

end Drivers

theorem reports_sound_parabola :
    parabola.system.Computes (fun u _ => u.map fun x => x * x - 2.0) ∧
    ∃ o run, Call.plain.options = .ok o ∧
      (((Candidate.newton none Settings.initial).solve .plain parabola).run ()).result = .ok run ∧
      run.code = .success ∧
      run.toSolution.Sound (fun u _ => u.map fun x => x * x - 2.0) o := by
  have hF : parabola.system.Computes (fun u _ => u.map fun x => x * x - 2.0) := fun _ _ => rfl
  have ho : (Call.plain.options : Except _ (Options Float)).isOk = true := by decide +kernel
  have hr : ((((Candidate.newton none Settings.initial).solve .plain parabola).run ()).result.map
      Run.code).toOption = some .success := by decide +kernel
  cases ho' : (Call.plain.options : Except _ (Options Float)) with
  | error e => rw [ho'] at ho; cases ho
  | ok o =>
    cases hrun : (((Candidate.newton none Settings.initial).solve .plain parabola).run
      ()).result with
    | error e => rw [hrun] at hr; cases hr
    | ok run =>
      rw [hrun] at hr
      obtain ⟨hcandidate, -⟩ := reports_sound hF ho'
      obtain ⟨hsolve, -⟩ := hcandidate (.newton none Settings.initial) trivial
      exact ⟨hF, o, run, rfl, rfl, Option.some.inj hr, hsolve run hrun⟩

end Rootfinder
