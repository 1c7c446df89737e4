import Rootfinder.Proofs.Recovery
import Rootfinder.Proofs.Refusals

namespace Rootfinder

variable {n : Nat}

theorem Problem.residual_isOk {P : Problem Float n} {u out : Vec Float n}
    (h : (P.residualInto u out).fault = none) : (P.residual u).isOk = true := by
  rw [residual, Filled.toExcept, P.residualInto_fault u out, h]
  rfl

/-- Starting over on a problem that was remade begins there, or is stranded there. -/
theorem Iteration.wp_reinit_remade {σ : Type} {m : Method Float n σ} {it : Iteration Float n σ}
    {P : Problem Float n} {start : Option (List Float)} {parameter : Option (Parameter Float)}
    {post : Unit → Iteration Float n σ → Prop} {broken : Fault Float → Iteration Float n σ → Prop}
    (hP : it.problem.remake start parameter = .ok P) :
    (reinit m start parameter).wp post broken it ↔
      match (P.residualInto P.start it.fu).fault with
      | none => post () (begun m P (P.residualInto P.start it.fu).array)
      | some e => broken e (it.stranded P (P.residualInto P.start it.fu).array) := by
  rw [reinit, Act.wp_bind, Act.wp_read, hP, Act.wp_bind, Act.wp_ofExcept_ok, Act.wp_bind,
    Act.wp_update, restart, Act.wp_bind, Act.wp_update, Act.wp_bind, wp_refresh_into]
  simp only
  cases (P.residualInto P.start it.fu).fault <;> rfl

namespace Session

variable {P P' : Problem Float n} {s : Session Float n}

theorem keeps_step_problem : (step : Act Float (Session Float n) Unit).Keeps (·.problem = P) :=
  fun s h => (Iteration.step_problem s.method_advance_at s.iteration).trans h

theorem keeps_solve_problem :
    (solve : Act Float (Session Float n) (Run Float n)).Keeps (·.problem = P) :=
  fun s h => s.driven_problem.trans h

/-- A session that is started over has the new problem, whether its system raises there or not. -/
theorem wp_reinit_problem {start : Option (List Float)} {parameter : Option (Parameter Float)}
    (hs : s.problem = P) (hP : P.remake start parameter = .ok P') :
    (reinit start parameter).wp (fun _ s' => (P'.residual P'.start).isOk = true ∧ s'.problem = P')
      (fun e s' => P'.residual P'.start = .error e ∧ s'.problem = P') s := by
  subst hs
  rw [reinit, wp_on, Iteration.wp_reinit_remade hP]
  cases hf : (P'.residualInto P'.start s.iteration.fu).fault with
  | none => exact ⟨Problem.residual_isOk hf, rfl⟩
  | some e => exact ⟨Problem.residual_of_some hf, rfl⟩

end Session

/-- An unfit starting point remakes no problem. -/
theorem Value.Unfit.not_remade {P P' : Problem Float n} {start : Value} {e : Fault Float}
    {parameter : Option (Parameter Float)} (h : start.Unfit n e) (hs : start ≠ .none) :
    ¬ P.Remade start parameter P' := by
  intro hr
  have hread := hr.moves hs
  obtain he | ⟨xs, hxs, hn, -⟩ := h.startingPoint
  · rw [he] at hread
    cases hread
  · obtain rfl := Except.ok.inj (hxs.symm.trans hread)
    exact hn P'.start.length_toList

namespace Warm

variable {P P' : Problem Float n} {w : Warm Float n}

/-- The problem that all sessions have. -/
def Shares (P : Problem Float n) (w : Warm Float n) : Prop := w.All (·.problem = P)

/-- The same sessions, but the first of them with another problem. -/
def Torn (w : Warm Float n) (P : Problem Float n) (w' : Warm Float n) : Prop :=
  ∃ s s' ss, w.sessions = s :: ss ∧ s'.problem = P ∧ w' = { w with sessions := s' :: ss }

theorem Shares.problem? (h : w.Shares P) (hne : w.sessions ≠ []) : w.problem? = some P := by
  obtain ⟨owner, sessions, current⟩ := w
  cases sessions with
  | nil => exact absurd rfl hne
  | cons s ss => exact congrArg some (h s List.mem_cons_self)

/-- Whatever is not a restart leaves the problem to all sessions. -/
theorem keeps_serve_shares {r : Request} (hr : r.Joint)
    (hn : ∀ start parameter, r ≠ .reinit start parameter) : (serve r).Keeps (Shares P) := by
  cases r with
  | performStep =>
    exact (keeps_performStep (keeps_on Session.keeps_solve_problem)).bind fun _ =>
      Act.keeps_pure _
  | solve =>
    exact (keeps_solve (keeps_on Session.keeps_solve_problem) all_cursor).bind fun _ =>
      Act.keeps_pure _
  | setCurrent value => exact (keeps_setCurrent all_cursor value).bind fun _ => Act.keeps_pure _
  | reinit start parameter => exact absurd rfl (hn start parameter)
  | one place request =>
    refine keeps_on ?_ place
    cases request with
    | step => exact Session.keeps_step_problem.bind fun _ => Act.keeps_pure _
    | solve => exact Session.keeps_solve_problem.bind fun _ => Act.keeps_pure _
    | reinit start parameter => exact hr.elim

/-- A restart on a problem that was remade reaches all sessions, or is stopped at the first. -/
theorem Shares.wp_reinit (h : w.Shares P) (hne : w.sessions ≠ []) {start : Option (List Float)}
    {parameter : Option (Parameter Float)} (hP : P.remake start parameter = .ok P') :
    (reinit start parameter).wp (fun _ w' => (P'.residual P'.start).isOk = true ∧ w'.Shares P')
      (fun e w' => P'.residual P'.start = .error e ∧ w.Torn P' w') w := by
  have hone : ∀ s : Session Float n, s.problem = P → (Session.reinit start parameter).wp
      (fun _ s' => (P'.residual P'.start).isOk = true ∧ s'.problem = P')
      (fun e s' => P'.residual P'.start = .error e ∧ s'.problem = P') s :=
    fun s hs => Session.wp_reinit_problem hs hP
  rw [reinit, Act.wp_zoom]
  cases hr : P'.residual P'.start with
  | ok r =>
    rw [hr] at hone
    have hall := Act.wp_each (fun s hs => (hone s hs).mono (fun _ _ hs' => hs'.2)
      fun _ _ hs' => by cases hs'.1) h
    exact hall.mono (fun _ ss hss => ⟨rfl, hss⟩) fun _ _ hf => hf.elim
  | error e =>
    obtain ⟨owner, sessions, current⟩ := w
    cases sessions with
    | nil => exact absurd rfl hne
    | cons s ss =>
      rw [hr] at hone
      rw [Act.wp_each_cons]
      refine (hone s (h s List.mem_cons_self)).mono (fun _ _ hs' => by cases hs'.1)
        fun e' s' hs' => ⟨hs'.1, s, s', ss, rfl, hs'.2, rfl⟩

/-- What a restart does to sessions that share a problem: it is remade for all of them; or it cannot
be, and nothing is changed; or the system raises at the new starting point, and only the first
session has it. -/
theorem Shares.wp_reinitAt (h : w.Shares P) (hne : w.sessions ≠ []) (start : Value)
    (parameter : Option (Parameter Float)) :
    (reinitAt start parameter).wp
      (fun _ w' => ∃ P', P.Remade start parameter P' ∧ (P'.residual P'.start).isOk = true ∧
        w'.Shares P')
      (fun e w' => (w' = w ∧ ∀ P', ¬ P.Remade start parameter P') ∨
        ∃ P', P.Remade start parameter P' ∧ P'.residual P'.start = .error e ∧ w.Torn P' w') w := by
  have hremade : ∀ {xs : Option (List Float)} {P' : Problem Float n},
      P.remake xs parameter = .ok P' → P.Remade start parameter P' →
      (reinit xs parameter).wp
        (fun _ w' => ∃ P', P.Remade start parameter P' ∧ (P'.residual P'.start).isOk = true ∧
          w'.Shares P')
        (fun e w' => (w' = w ∧ ∀ P', ¬ P.Remade start parameter P') ∨
          ∃ P', P.Remade start parameter P' ∧ P'.residual P'.start = .error e ∧ w.Torn P' w') w :=
    fun hP hr => (h.wp_reinit hne hP).mono (fun _ _ h' => ⟨_, hr, h'⟩)
      fun _ _ h' => .inr ⟨_, hr, h'⟩
  by_cases hs : start = .none
  · subst hs
    have hP : P.remake none parameter = .ok { P with parameter := parameter.getD P.parameter } :=
      rfl
    exact hremade hP (Problem.remade_none hP)
  · obtain ⟨e, he⟩ | ⟨xs, hxs, hn⟩ := Value.unfit_or_fits n start
    · have hrun := reinitAt_unfit hne hs he parameter
      simp only [Act.wp, hrun]
      exact .inl ⟨trivial, fun P' => he.not_remade hs⟩
    · have hread : reinitAt (n := n) start parameter = reinit (some xs) parameter := by
        unfold reinitAt
        split
        · exact absurd rfl hs
        · rw [hxs]
          rfl
      obtain ⟨v, hv⟩ : ∃ v, Vec.ofList? n xs = some v := ⟨_, dif_pos (by simpa using hn)⟩
      have hP : P.remake (some xs) parameter =
          .ok { P with parameter := parameter.getD P.parameter, start := v } := by
        rw [Problem.remake]
        simp only [hv]
      rw [hread]
      exact hremade hP (Problem.remade_some hs hxs hP)

/-- At a new starting point where the system raises, the restart raises the same and tears the
sessions. -/
theorem Shares.reinitAt_raises (h : w.Shares P) (hne : w.sessions ≠ []) {start : Value}
    {parameter : Option (Parameter Float)} {e : Fault Float} (hremade : P.Remade start parameter P')
    (he : P'.residual P'.start = .error e) :
    ((reinitAt start parameter).run w).result = .error e ∧
      w.Torn P' ((reinitAt start parameter).run w).state := by
  have hw := h.wp_reinitAt hne start parameter
  cases hres : ((reinitAt start parameter).run w).result with
  | ok b =>
    obtain ⟨P'', hremade', hok, -⟩ := hw.of_ok hres
    obtain rfl := hremade.unique hremade'
    rw [he] at hok
    cases hok
  | error e' =>
    obtain ⟨-, hnone⟩ | ⟨P'', hremade', he', htorn⟩ := hw.of_error hres
    · exact absurd hremade (hnone P')
    · obtain rfl := hremade.unique hremade'
      exact ⟨congrArg Except.error (Except.error.inj (he'.symm.trans he)), htorn⟩

/-- Where the system does not raise at the new starting point, sessions that share a problem share
one after the restart. -/
theorem Shares.reinitAt_shares (h : w.Shares P) (hne : w.sessions ≠ []) {start : Value}
    {parameter : Option (Parameter Float)}
    (hquiet : ¬ ∃ P' e, P.Remade start parameter P' ∧ P'.residual P'.start = .error e) :
    ∃ Q, ((reinitAt start parameter).run w).state.Shares Q := by
  have hw := h.wp_reinitAt hne start parameter
  cases hres : ((reinitAt start parameter).run w).result with
  | ok b =>
    obtain ⟨P', -, -, hshares⟩ := hw.of_ok hres
    exact ⟨P', hshares⟩
  | error e =>
    obtain ⟨hsame, -⟩ | ⟨P', hremade, he, -⟩ := hw.of_error hres
    · exact ⟨P, by rwa [hsame]⟩
    · exact absurd ⟨P', e, hremade, he⟩ hquiet

/-- A restart of all sessions at whose new starting point the system raises, so that only the first
of several gets a problem that is not the old one. -/
def Parts (w : Warm Float n) (r : Request) : Prop :=
  2 ≤ w.sessions.length ∧ ∃ P P' start parameter e, w.problem? = some P ∧
    r = .reinit start parameter ∧ P.Remade start parameter P' ∧ P' ≠ P ∧
    P'.residual P'.start = .error e

theorem Shares.parts_reinit_iff (h : w.Shares P) (hne : w.sessions ≠ []) {start : Value}
    {parameter : Option (Parameter Float)} :
    w.Parts (.reinit start parameter) ↔ 2 ≤ w.sessions.length ∧
      ∃ P' e, P.Remade start parameter P' ∧ P' ≠ P ∧ P'.residual P'.start = .error e := by
  constructor
  · rintro ⟨htwo, Q, P', start', parameter', e, hQ, heq, hrest⟩
    obtain ⟨rfl, rfl⟩ := Request.reinit.inj heq
    obtain rfl := Option.some.inj ((h.problem? hne).symm.trans hQ)
    exact ⟨htwo, P', e, hrest⟩
  · rintro ⟨htwo, P', e, hrest⟩
    exact ⟨htwo, P, P', start, parameter, e, h.problem? hne, rfl, hrest⟩

/-- Torn sessions share a problem only if it is the old one or there are no others. -/
theorem Torn.shares_iff {w' : Warm Float n} (h : w.Shares P) (ht : w.Torn P' w') :
    (∃ Q, w'.Shares Q) ↔ (2 ≤ w.sessions.length → P' = P) := by
  obtain ⟨s, s', ss, hw, hs', rfl⟩ := ht
  rw [hw]
  have htail : ∀ t ∈ ss, t.problem = P := fun t ht => h t (hw ▸ List.mem_cons_of_mem s ht)
  constructor
  · rintro ⟨Q, hQ⟩ htwo
    cases ss with
    | nil => exact absurd htwo (by simp)
    | cons t ts =>
      have hfirst : P' = Q := hs'.symm.trans (hQ s' List.mem_cons_self)
      have hsecond : t.problem = Q := hQ t (List.mem_cons_of_mem s' List.mem_cons_self)
      exact hfirst.trans (hsecond.symm.trans (htail t List.mem_cons_self))
  · intro himp
    refine ⟨P', fun t ht => ?_⟩
    rcases List.mem_cons.mp ht with rfl | ht
    · exact hs'
    · have htwo : 2 ≤ (s :: ss).length := Nat.succ_le_succ (List.length_pos_of_mem ht)
      exact (htail t ht).trans (himp htwo).symm

/-- Sessions that share a problem share one after a request, unless it parts them. -/
theorem Shares.serve_iff (h : w.Shares P) (hne : w.sessions ≠ []) {r : Request} (hr : r.Joint) :
    (∃ Q, ((serve r).run w).state.Shares Q) ↔ ¬ w.Parts r := by
  by_cases hn : ∀ start parameter, r ≠ .reinit start parameter
  · refine iff_of_true ⟨P, keeps_serve_shares hr hn w h⟩ ?_
    rintro ⟨-, -, -, start, parameter, -, -, rfl, -⟩
    exact hn start parameter rfl
  · simp only [not_forall, not_not] at hn
    obtain ⟨start, parameter, rfl⟩ := hn
    have hrun : ((serve (.reinit start parameter)).run w).state =
        ((reinitAt start parameter).run w).state := by
      rw [serve, Act.run_bind_pure]
    rw [hrun, h.parts_reinit_iff hne]
    by_cases hraise : ∃ P' e, P.Remade start parameter P' ∧ P'.residual P'.start = .error e
    · obtain ⟨P', e, hremade, he⟩ := hraise
      rw [(h.reinitAt_raises hne hremade he).2.shares_iff h]
      constructor
      · rintro himp ⟨htwo, P'', -, hremade', hne', -⟩
        obtain rfl := hremade.unique hremade'
        exact hne' (himp htwo)
      · intro hnot htwo
        by_contra hne'
        exact hnot ⟨htwo, P', e, hremade, hne', he⟩
    · refine iff_of_true (h.reinitAt_shares hne hraise) ?_
      rintro ⟨-, P', e, hremade, -, he⟩
      exact hraise ⟨P', e, hremade, he⟩

/-- What is answered shows the problem that its run was made on, as long as all sessions share
it. -/
theorem Shares.answers (h : w.Shares P) {r : Request} (hr : r.Joint) {sol : Solution Float n}
    (ha : ((serve r).run w).result = .ok (some sol)) :
    sol.problem = some P ∧ ∀ run ∈ sol.original, run.problem = P := by
  by_cases hn : ∀ start parameter, r ≠ .reinit start parameter
  · have hshares := keeps_serve_shares hr hn w h
    have hshows := (wp_serve r w).of_ok ha sol rfl
    generalize ((serve r).run w).state = w' at hshares hshows
    cases hshows with
    | single hs => exact ⟨congrArg some (hshares _ hs), fun run hrun => by cases hrun⟩
    | chosen hs owner i records hc =>
      refine ⟨hshares.problem? (List.ne_nil_of_mem hs), fun run hrun => ?_⟩
      obtain rfl := Option.some.inj hrun
      exact hshares _ hs
  · simp only [not_forall, not_not] at hn
    obtain ⟨start, parameter, rfl⟩ := hn
    rw [serve, Act.run_bind_pure] at ha
    obtain ⟨-, -, hnone⟩ := except_map_ok ha
    cases hnone

end Warm

section Reunion

variable {S : System Float n}

theorem Session.keeps_reinit_system (start : Option (List Float))
    (parameter : Option (Parameter Float)) :
    (reinit start parameter).Keeps fun s : Session Float n => s.problem.system = S := by
  apply Act.keeps_of_wp
  intro s h
  rw [reinit, wp_on]
  refine (Iteration.wp_reinit_begun start parameter).mono (fun _ it h' => ?_) fun _ it h' => ?_
  · obtain ⟨P, hP, -, rfl⟩ := h'
    exact (Problem.remake_system hP).trans h
  · obtain rfl | ⟨P, hP, -, rfl⟩ := h'
    · exact h
    · exact (Problem.remake_system hP).trans h

theorem Session.keeps_serve_system (r : Request) :
    (serve r).Keeps fun s : Session Float n => s.problem.system = S := by
  refine keeps_request (fun s h => ?_) (fun s h => ?_)
    (fun start parameter => keeps_reinitAt (fun xs => keeps_reinit_system xs parameter) start) r
  · exact (congrArg Problem.system (keeps_step_problem s rfl)).trans h
  · exact (congrArg Problem.system (keeps_solve_problem s rfl)).trans h

namespace Warm

variable {w : Warm Float n}

/-- No request changes the system of a session. -/
theorem keeps_serve_system (r : Request) : (serve r).Keeps
    (All fun s : Session Float n => s.problem.system = S) := by
  have hsolve : ∀ i, (on i Session.solve).Keeps
      (All fun s : Session Float n => s.problem.system = S) :=
    keeps_on fun s h => (congrArg Problem.system (Session.keeps_solve_problem s rfl)).trans h
  cases r with
  | performStep => exact (keeps_performStep hsolve).bind fun _ => Act.keeps_pure _
  | solve => exact (keeps_solve hsolve all_cursor).bind fun _ => Act.keeps_pure _
  | setCurrent value => exact (keeps_setCurrent all_cursor value).bind fun _ => Act.keeps_pure _
  | reinit start parameter =>
    refine Act.Keeps.bind ?_ fun _ => Act.keeps_pure _
    exact keeps_reinitAt (fun xs => keeps_reinit (Session.keeps_reinit_system xs parameter)) start
  | one place request => exact keeps_on (Session.keeps_serve_system request) place

structure Kin (S : System Float n) (count : Nat) (w : Warm Float n) : Prop extends
    Placed count w where
  system : w.All fun s => s.problem.system = S

variable {count : Nat}

theorem keeps_serve_kin (hc : 0 < count) (r : Request) : (serve r).Keeps (Kin S count) :=
  fun w h => ⟨keeps_placed hc r w h.toPlaced, keeps_serve_system r w h.system⟩

theorem Fresh.kin [LinearRoutines Float] {call : Call} {problem : Problem Float n} {owner : Solver}
    {cs : List Candidate} (h : Fresh call problem owner cs w) :
    w.Shares problem ∧ w.Kin problem.system w.sessions.length := by
  have hproblem : w.Shares problem := fun s hs => by
    obtain ⟨c, -, hc⟩ := h.mem hs
    exact hc.problem
  exact ⟨hproblem, ⟨rfl, h.current ▸ Nat.zero_le _⟩,
    fun s hs => congrArg Problem.system (hproblem s hs)⟩

end Warm

/-- A starting point and a parameter leave nothing of the old problem but its system. -/
theorem Problem.Remade.same {P P' Q Q' : Problem Float n} {start : Value} {p : Parameter Float}
    (hs : start ≠ .none) (h : P.Remade start (some p) P') (h' : Q.Remade start (some p) Q')
    (hsystem : P.system = Q.system) : P' = Q' := by
  have hQ : P.Remade start (some p) Q' :=
    ⟨h'.system.trans hsystem.symm, h'.parameter, fun he => absurd he hs, h'.moves⟩
  exact h.unique hQ

/-- Where every state is led to one with a property, or the computation raises. -/
theorem Act.wp_each_or_raise {α σ : Type} {Q Q' : σ → Prop} {x : Act α σ Unit}
    (hx : ∀ s, Q s → x.wp (fun _ => Q') (fun _ _ => True) s) {ss : List σ} (h : ∀ s ∈ ss, Q s) :
    (each x).wp (fun _ ss' => ∀ s ∈ ss', Q' s) (fun _ _ => True) ss := by
  induction ss with
  | nil => exact fun s hs => absurd hs List.not_mem_nil
  | cons s ss ih =>
    obtain ⟨hs, hss⟩ := List.forall_mem_cons.mp h
    rw [wp_each_cons]
    refine (hx s hs).mono (fun _ s' hs' => ?_) fun _ _ _ => trivial
    exact (ih hss).mono (fun _ _ h => List.forall_mem_cons.mpr ⟨hs', h⟩) fun _ _ h => h

/-- A restart that gives a starting point and a parameter, and is not stopped, brings sessions of
one system together. -/
theorem Warm.wp_reinitAt_reunites {w : Warm Float n} (hne : w.sessions ≠ [])
    (h : w.All fun s => s.problem.system = S) {start : Value} (hs : start ≠ .none)
    (p : Parameter Float) :
    (reinitAt start (some p)).wp (fun _ w' => ∃ P, w'.Shares P) (fun _ _ => True) w := by
  unfold reinitAt
  split
  · exact absurd rfl hs
  · rw [Act.wp_bind]
    cases hx : start.startingPoint (α := Float) with
    | error e => trivial
    | ok xs =>
      have hone : ∀ s : Session Float n, s.problem.system = S →
          (Session.reinit (some xs) (some p)).wp (fun _ s' => ∃ Q : Problem Float n,
            Q.system = S ∧ Q.Remade start (some p) s'.problem) (fun _ _ => True) s := by
        intro s hsystem
        rw [Session.reinit, Session.wp_on]
        refine (Iteration.wp_reinit_begun _ _).mono (fun _ it h' => ?_) fun _ _ _ => trivial
        obtain ⟨P, hP, -, rfl⟩ := h'
        exact ⟨s.problem, hsystem, Problem.remade_some hs hx hP⟩
      rw [Act.wp_ofExcept_ok, reinit, Act.wp_zoom]
      refine (Act.wp_each_or_raise hone h).mono (fun _ ss hss => ?_) fun _ _ _ => trivial
      cases ss with
      | nil =>
        obtain ⟨s, -⟩ := List.exists_mem_of_ne_nil _ hne
        exact ⟨s.problem, fun u hu => absurd hu List.not_mem_nil⟩
      | cons t ts =>
        obtain ⟨Q, hQ, ht⟩ := hss t List.mem_cons_self
        refine ⟨t.problem, fun u hu => ?_⟩
        obtain ⟨Q', hQ', hu⟩ := hss u hu
        exact Problem.Remade.same hs hu ht (hQ'.trans hQ.symm)

end Reunion

/-- What kept sessions have in common over whole histories. As long as no request parts them, they
all have one problem, and every solution shows the problem that its run was made on. From there, a
request leaves them without a common problem exactly if it parts them: it is a restart of several at
whose new starting point the system raises. Such a restart raises the same, and leaves the first
session with the new problem and the others as they were; one that gives both a starting point and a
parameter, and returns, brings sessions together again, whatever they went through. -/
theorem kept_sessions_share_problem [LinearRoutines Float] {call : Call} {problem : Problem Float n}
    {owner : Solver} {cs : List Candidate} {w₀ : Warm Float n}
    (h₀ : ((Warm.ofCandidates owner cs call problem).run ()).result = .ok w₀) :
    (∀ rs w, Act.Served Warm.serve (fun w r => r.Joint ∧ ¬ w.Parts r) w₀ rs w →
      ∃ P, w.Shares P ∧ P.system = problem.system ∧
        (∀ r sol, r.Joint → ((Warm.serve r).run w).result = .ok (some sol) →
          sol.problem = some P ∧ ∀ run ∈ sol.original, run.problem = P) ∧
        (∀ r, r.Joint → ((∃ Q, ((Warm.serve r).run w).state.Shares Q) ↔ ¬ w.Parts r)) ∧
        ∀ start parameter P' e, P.Remade start parameter P' → P'.residual P'.start = .error e →
          ((Warm.reinitAt start parameter).run w).result = .error e ∧
            w.Torn P' ((Warm.reinitAt start parameter).run w).state) ∧
    ∀ w, Act.Reached Warm.serve (fun _ => True) w₀ w → ∀ start p, start ≠ .none →
      ((Warm.reinitAt start (some p)).run w).result.isOk = true →
      ∃ P, ((Warm.reinitAt start (some p)).run w).state.Shares P := by
  have hfresh := Warm.fresh_ofCandidates h₀
  have hpos : 0 < w₀.sessions.length := List.length_pos_iff.mpr hfresh.nonempty
  obtain ⟨hshares₀, hkin₀⟩ := hfresh.kin
  refine ⟨fun rs w h => ?_, fun w h start p hs hok => ?_⟩
  · obtain ⟨hkin, P, hshares⟩ : w.Kin problem.system w₀.sessions.length ∧ ∃ P, w.Shares P := by
      refine h.keeps (P := fun w => w.Kin problem.system w₀.sessions.length ∧ ∃ P, w.Shares P)
        ⟨hkin₀, problem, hshares₀⟩ ?_
      rintro w r ⟨hkin, P, hshares⟩ ⟨hjoint, hparts⟩
      exact ⟨Warm.keeps_serve_kin hpos r w hkin,
        (hshares.serve_iff (hkin.ne_nil hpos) hjoint).mpr hparts⟩
    have hne := hkin.ne_nil hpos
    obtain ⟨s, hs⟩ := List.exists_mem_of_ne_nil _ hne
    exact ⟨P, hshares, hshares s hs ▸ hkin.system s hs, fun r sol hr => hshares.answers hr,
      fun r hr => hshares.serve_iff hne hr,
      fun start parameter P' e hremade he => hshares.reinitAt_raises hne hremade he⟩
  · have hkin : w.Kin problem.system w₀.sessions.length :=
      h.keeps hkin₀ fun r _ => Warm.keeps_serve_kin hpos r
    have hw := Warm.wp_reinitAt_reunites (hkin.ne_nil hpos) hkin.system hs p
    exact hw.of_ok (Act.returns_of_isOk hok).1

/-- A polyalgorithm with five candidates. -/
def sturdy : Polyalgorithm := ⟨.robust, Settings.initial⟩

/-- A restart on the near side of the cliff, and one beyond it that is made good by another. -/
theorem kept_sessions_share_problem_cliff : ∃ w₀ w : Warm Float 1,
    ((sturdy.init .plain cliff).run ()).result = .ok w₀ ∧
    Act.Served Warm.serve (fun w r => r.Joint ∧ ¬ w.Parts r) w₀ [.reinit (.num 3.0) none] w ∧
    (∃ P, w.Shares P) ∧
    ∃ P, ((Warm.reinitAt (.num 2.0) (some .absent)).run
      ((Warm.serve (.reinit (.num 9.0) none)).run w₀).state).state.Shares P := by
  have hrun : ((sturdy.init .plain cliff).run ()).result.toOption.map (fun w₀ =>
      (((Warm.reinitAt (.num 3.0) none).run w₀).result.isOk,
        ((Warm.reinitAt (.num 2.0) (some .absent)).run
          ((Warm.serve (.reinit (.num 9.0) none)).run w₀).state).result.isOk)) =
      some (true, true) := by decide +kernel
  cases h₀ : ((sturdy.init .plain cliff).run ()).result with
  | error e => rw [h₀] at hrun; cases hrun
  | ok w₀ =>
    rw [h₀] at hrun
    obtain ⟨hnear, hback⟩ := Prod.mk.inj (Option.some.inj hrun)
    obtain ⟨hshare, hreunite⟩ := kept_sessions_share_problem h₀
    obtain ⟨P, hP, -, -, -, hbreak⟩ := hshare [] w₀ (.none w₀)
    have hkeeps : ¬ w₀.Parts (.reinit (.num 3.0) none) := by
      rw [hP.parts_reinit_iff (Warm.fresh_ofCandidates h₀).nonempty]
      rintro ⟨-, P', e, hremade, -, he⟩
      rw [(hbreak _ _ P' e hremade he).1] at hnear
      cases hnear
    have hserved : Act.Served Warm.serve (fun w r => r.Joint ∧ ¬ w.Parts r) w₀
        [.reinit (.num 3.0) none] _ := .more ⟨trivial, hkeeps⟩ (.none _)
    obtain ⟨Q, hQ, -⟩ := hshare _ _ hserved
    have hreached : Act.Reached Warm.serve (fun _ => True) w₀
        ((Warm.serve (.reinit (.num 9.0) none)).run w₀).state :=
      .after .start (Warm.Request.reinit (.num 9.0) none) trivial
    exact ⟨w₀, _, rfl, hserved, ⟨Q, hQ⟩, hreunite _ hreached _ _ (by nofun) hback⟩

/-- A restart beyond the cliff that parts the sessions, so that a later solution comes from another
problem than the one it shows. -/
theorem parted_sessions_mislabel : ∃ w₀ w : Warm Float 1, ∃ sol run,
    ((sturdy.init .plain cliff).run ()).result = .ok w₀ ∧
    Act.Served Warm.serve (fun _ r => r.Joint) w₀
      [.reinit (.num 9.0) none, .setCurrent (.int 1)] w ∧
    (¬ ∃ P, w.Shares P) ∧
    (Warm.solve.run w).result = .ok sol ∧ sol.code = .success ∧ sol.original = some run ∧
      sol.problem ≠ some run.problem := by
  have hrun : ((sturdy.init .plain cliff).run ()).result.toOption.map (fun w₀ =>
      let w₁ := ((Warm.serve (.reinit (.num 9.0) none)).run w₀).state
      let w := ((Warm.serve (.setCurrent (.int 1))).run w₁).state
      (Warm.solve.run w).result.toOption.map fun sol =>
        (sol.code, sol.problem.map fun P => P.start.toList.all (· ≤ 5.0),
          sol.original.map fun run => run.problem.start.toList.all (· ≤ 5.0))) =
      some (some (.success, some false, some true)) := by decide +kernel
  cases h₀ : ((sturdy.init .plain cliff).run ()).result with
  | error e => rw [h₀] at hrun; cases hrun
  | ok w₀ =>
    rw [h₀] at hrun
    simp only [Except.toOption, Option.map_some, Option.some.injEq] at hrun
    have hserved : Act.Served Warm.serve (fun _ r => r.Joint) w₀
        [.reinit (.num 9.0) none, .setCurrent (.int 1)] _ := .more trivial (.more trivial (.none _))
    generalize ((Warm.serve (.setCurrent (.int 1))).run
      ((Warm.serve (.reinit (.num 9.0) none)).run w₀).state).state = w at hserved hrun
    cases hsol : (Warm.solve.run w).result with
    | error e => rw [hsol] at hrun; cases hrun
    | ok sol =>
      rw [hsol] at hrun
      obtain ⟨hcode, hshown⟩ := Prod.mk.inj (Option.some.inj hrun)
      obtain ⟨hproblem, horiginal⟩ := Prod.mk.inj hshown
      obtain ⟨run, hrun, hstart⟩ := Option.map_eq_some_iff.mp horiginal
      have hne : sol.problem ≠ some run.problem := by
        intro he
        rw [he, Option.map_some, hstart] at hproblem
        cases hproblem
      refine ⟨w₀, w, sol, run, rfl, hserved, ?_, hsol, hcode, hrun, hne⟩
      rintro ⟨P, hP⟩
      have ha : ((Warm.serve .solve).run w).result = .ok (some sol) := by
        rw [Warm.run_serve_solve, hsol]
        rfl
      obtain ⟨hshows, hmade⟩ := hP.answers (r := .solve) trivial ha
      exact hne (hmade run hrun ▸ hshows)

end Rootfinder
