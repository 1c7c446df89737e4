import Rootfinder.Linear.Textbook
import Rootfinder.Proofs.Candidates
import Rootfinder.Proofs.History
import Rootfinder.Proofs.Residual

namespace Rootfinder

variable {α σ β : Type} {n : Nat}

/-- In place, a function that returns has stored every component. -/
def System.Overwrites : System α n → Prop
  | .outOfPlace .. => True
  | .inPlace f _ => ∀ u p, (f u p).fault = none → ∀ i, ∃ x, (i, x) ∈ (f u p).stores

section Storing

/-- Two arrays agree where something is stored into both, or where they agreed before. -/
theorem Writes.fill_get {w : Writes (Fin n) α} {out out' : Vec α n} {i : Fin n}
    (h : (∃ x, (i, x) ∈ w.stores) ∨ out.get i = out'.get i) :
    (w.fill out).array.get i = (w.fill out').array.get i := by
  obtain ⟨stores, fault⟩ := w
  induction stores generalizing out out' with
  | nil => simpa [fill] using h
  | cons s stores ih =>
    obtain ⟨j, y⟩ := s
    have hget : ∀ v : Vec α n, (v.set j y).get i = if j = i then y else v.get i := by
      intro v
      change (v.set j y)[i] = if j = i then y else v[i]
      simp [Vector.getElem_set, Fin.ext_iff]
    have hrest : (∃ x, (i, x) ∈ stores) ∨ (out.set j y).get i = (out'.set j y).get i := by
      rw [hget, hget]
      by_cases hj : j = i
      · exact .inr (by rw [if_pos hj, if_pos hj])
      · rw [if_neg hj, if_neg hj]
        rcases h with ⟨x, hx⟩ | h
        · exact .inl ⟨x, (List.mem_cons.mp hx).resolve_left fun he => hj (Prod.mk.inj he).1.symm⟩
        · exact .inr h
    exact ih hrest

theorem Writes.fill_eq {w : Writes (Fin n) α} (h : ∀ i, ∃ x, (i, x) ∈ w.stores)
    (out out' : Vec α n) : w.fill out' = w.fill out := by
  have ha : (w.fill out').array = (w.fill out).array :=
    Vector.ext fun i hi => Writes.fill_get (i := ⟨i, hi⟩) (.inl (h ⟨i, hi⟩))
  exact congrArg (Filled.mk · w.fault) ha

/-- Where a system stores every component, what stood there before does not matter. -/
theorem Problem.residualInto_eq_of_overwrites {P : Problem α n} (hw : P.system.Overwrites)
    {u out : Vec α n} (h : (P.residualInto u out).fault = none) (out' : Vec α n) :
    P.residualInto u out' = P.residualInto u out := by
  obtain ⟨system, start, p⟩ := P
  cases system with
  | outOfPlace f jac =>
    simp only [Problem.residualInto] at h ⊢
    cases hf : f u p with
    | ok r => rfl
    | error e => rw [hf] at h; cases h
  | inPlace f jac => exact Writes.fill_eq (hw u p h) out out'

end Storing

variable [Scalar α]

namespace Iteration

variable {m : Method α n σ} {P : Problem α n} {it : Iteration α n σ}

def begun (m : Method α n σ) (P : Problem α n) (fu : Vec α n) : Iteration α n σ :=
  ⟨P, P.start, fu, .default, false, ({} : Stats).countResidual, m.restart P.start fu⟩

omit [Scalar α] in
theorem wp_refresh_into {post : Unit → Iteration α n σ → Prop}
    {broken : Fault α → Iteration α n σ → Prop} :
    refresh.wp post broken it ↔
      match (it.problem.residualInto it.u it.fu).fault with
      | none => post () { it with fu := (it.problem.residualInto it.u it.fu).array,
                                  stats := it.stats.countResidual }
      | some e => broken e { it with fu := (it.problem.residualInto it.u it.fu).array,
                                     stats := it.stats.countResidual } := by
  simp only [refresh, Act.wp_bind, Act.wp_update, Act.wp_read]
  cases (it.problem.residualInto it.u it.fu).fault <;> rfl

theorem returns_start (h : (P.residualInto P.start (Vec.zero n)).fault = none) :
    (start m P).Returns () (begun m P (P.residualInto P.start (Vec.zero n)).array) () := by
  apply Act.returns_of_wp
  rw [start, Act.wp_within, Act.wp_bind, wp_refresh_into]
  simp only [blank, h]
  exact ⟨rfl, trivial⟩

/-- A run starts at the starting point, if the residual can be evaluated there. -/
theorem wp_start_begun : (start m P).wp
    (fun it _ => (P.residualInto P.start (Vec.zero n)).fault = none ∧
      it = begun m P (P.residualInto P.start (Vec.zero n)).array) (fun _ _ => True) () := by
  cases h : (P.residualInto P.start (Vec.zero n)).fault with
  | none =>
    rw [(returns_start h).wp_iff]
    exact ⟨rfl, rfl⟩
  | some e =>
    rw [start, Act.wp_within, Act.wp_bind, wp_refresh_into]
    simp only [blank, h]

def stranded (it : Iteration α n σ) (P : Problem α n) (fu : Vec α n) : Iteration α n σ :=
  ⟨P, P.start, fu, .default, false, ({} : Stats).countResidual, it.memory⟩

omit [Scalar α] in
/-- Starting over remakes the problem and begins anew; only the array of the residual is old. Where
the problem cannot be remade, nothing has changed. -/
theorem wp_reinit_begun (start : Option (List α)) (parameter : Option (Parameter α)) :
    (reinit m start parameter).wp
      (fun _ it' => ∃ P, it.problem.remake start parameter = .ok P ∧
        (P.residualInto P.start it.fu).fault = none ∧
        it' = begun m P (P.residualInto P.start it.fu).array)
      (fun e it' => it' = it ∨ ∃ P, it.problem.remake start parameter = .ok P ∧
        (P.residualInto P.start it.fu).fault = some e ∧
        it' = stranded it P (P.residualInto P.start it.fu).array) it := by
  rw [reinit, Act.wp_bind, Act.wp_read, Act.wp_bind]
  cases hr : it.problem.remake start parameter with
  | error e => exact .inl rfl
  | ok P =>
    rw [Act.wp_ofExcept_ok, Act.wp_bind, Act.wp_update, restart, Act.wp_bind, Act.wp_update,
      Act.wp_bind, wp_refresh_into]
    simp only
    cases hf : (P.residualInto P.start it.fu).fault with
    | some e => exact .inr ⟨P, rfl, hf, rfl⟩
    | none => exact ⟨P, rfl, hf, rfl⟩

end Iteration

namespace Session

/-- Started over, a session is the one that its algorithm starts on the remade problem with. -/
theorem wp_reinit_fresh {s : Session α n} (hw : s.problem.system.Overwrites)
    (start : Option (List α)) (parameter : Option (Parameter α)) :
    (reinit start parameter).wp
      (fun _ s' => ∃ P, s.problem.remake start parameter = .ok P ∧
        s'.algorithm = s.algorithm ∧ s'.options = s.options ∧
        (Session.start s.algorithm s.options P).Returns () s' ())
      (fun _ s' => s'.algorithm = s.algorithm ∧ s'.options = s.options ∧
        s'.problem.system = s.problem.system) s := by
  unfold reinit
  rw [wp_on]
  refine (Iteration.wp_reinit_begun start parameter).mono (fun _ it h => ?_) fun _ it h => ?_
  · obtain ⟨P, hP, hf, rfl⟩ := h
    have hwP : P.system.Overwrites := by
      rw [Problem.remake_system hP]
      exact hw
    have hz := Problem.residualInto_eq_of_overwrites hwP hf (Vec.zero n)
    have hstart := Iteration.returns_start (m := s.algorithm.method s.options n) (P := P)
      (by rw [hz]; exact hf)
    rw [hz] at hstart
    refine ⟨P, hP, rfl, rfl, Act.returns_of_wp ?_⟩
    rw [Session.start, Act.wp_bind, hstart.wp_iff]
    exact ⟨rfl, rfl⟩
  · refine ⟨rfl, rfl, ?_⟩
    obtain rfl | ⟨P, hP, -, rfl⟩ := h
    · rfl
    · exact Problem.remake_system hP

/-- The session that another becomes when it is started over on a problem of its system. -/
def StartedOver (s s' : Session α n) : Prop :=
  ∃ P, P.system = s.problem.system ∧ (P.residualInto P.start s.iteration.fu).fault = none ∧
    s' = { s with iteration :=
      Iteration.begun s.method P (P.residualInto P.start s.iteration.fu).array }

def StrandedBy (s : Session α n) (e : Fault α) (s' : Session α n) : Prop :=
  ∃ P, P.system = s.problem.system ∧ (P.residualInto P.start s.iteration.fu).fault = some e ∧
    s' = { s with iteration :=
      s.iteration.stranded P (P.residualInto P.start s.iteration.fu).array }

/-- The point to start over from is still to be read; where it cannot be, nothing has changed. -/
theorem wp_reinitAt_begun (s : Session Float n) (start : Value)
    (parameter : Option (Parameter Float)) : (reinitAt start parameter).wp
      (fun _ => s.StartedOver) (fun e s' => s' = s ∨ s.StrandedBy e s') s := by
  have hreinit : ∀ xs : Option (List Float), (reinit xs parameter).wp
      (fun _ => s.StartedOver) (fun e s' => s' = s ∨ s.StrandedBy e s') s := by
    intro xs
    rw [reinit, wp_on]
    refine (Iteration.wp_reinit_begun xs parameter).mono (fun _ it h => ?_) fun _ it h => ?_
    · obtain ⟨P, hP, hf, rfl⟩ := h
      exact ⟨P, Problem.remake_system hP, hf, rfl⟩
    · obtain rfl | ⟨P, hP, hf, rfl⟩ := h
      · exact .inl rfl
      · exact .inr ⟨P, Problem.remake_system hP, hf, rfl⟩
  unfold reinitAt
  split
  · exact hreinit none
  · rw [Act.wp_bind]
    exact ((Act.keeps_ofExcept _).wp (P := fun s' => s' = s) rfl).mono
      (fun xs _ hs => hs ▸ hreinit (some xs)) fun _ _ hs => .inl hs

end Session

section Remaking

variable {P P' P'' : Problem Float n} {start : Value} {parameter : Option (Parameter Float)}

/-- A problem with another starting point and parameter; what is not given is as it was. -/
structure Problem.Remade (P : Problem Float n) (start : Value)
    (parameter : Option (Parameter Float)) (P' : Problem Float n) : Prop where
  system : P'.system = P.system
  parameter : P'.parameter = parameter.getD P.parameter
  stays : start = .none → P'.start = P.start
  moves : start ≠ .none → start.startingPoint (α := Float) = .ok P'.start.toList

theorem Problem.Remade.unique (h : P.Remade start parameter P')
    (h' : P.Remade start parameter P'') : P' = P'' := by
  have hstart : P'.start = P''.start := by
    by_cases hs : start = .none
    · rw [h.stays hs, h'.stays hs]
    · have hl := (h.moves hs).symm.trans (h'.moves hs)
      exact Vector.toList_inj.mp (Except.ok.inj hl)
  have hsystem := h.system.trans h'.system.symm
  have hparameter := h.parameter.trans h'.parameter.symm
  cases P'
  cases P''
  simp_all only

theorem Problem.remade_none (h : P.remake none parameter = .ok P') :
    P.Remade .none parameter P' := by
  obtain rfl := Except.ok.inj h
  exact ⟨rfl, rfl, fun _ => rfl, fun hs => absurd rfl hs⟩

theorem Problem.remade_some {xs : List Float} (hs : start ≠ .none)
    (hx : start.startingPoint (α := Float) = .ok xs) (h : P.remake (some xs) parameter = .ok P') :
    P.Remade start parameter P' := by
  simp only [Problem.remake, Vec.ofList?] at h
  split at h
  · rename_i v hv
    obtain rfl := Except.ok.inj h
    split at hv
    · obtain rfl := Option.some.inj hv
      exact ⟨rfl, rfl, fun he => absurd he hs, fun _ => hx⟩
    · cases hv
  · cases h

end Remaking

namespace Candidate

variable {call : Call} {P : Problem Float n} {c : Candidate} {s : Session Float n}

variable [LinearRoutines Float]

/-- A session that works on a problem as the candidate does under the options of a call, which are
accepted for the system. -/
structure Works (call : Call) (P : Problem Float n) (c : Candidate) (s : Session Float n) :
    Prop where
  algorithm : s.algorithm = c.algorithm
  options : call.options = .ok s.options
  problem : s.problem = P
  accepted : ∃ P₀ s₀, P₀.system = P.system ∧ Started call P₀ c s₀

/-- A session that a candidate is set to work with is at the starting point of the problem. -/
theorem Started.begun (h : Started call P c s) :
    (P.residualInto P.start (Vec.zero n)).fault = none ∧
      s.iteration = Iteration.begun s.method P (P.residualInto P.start (Vec.zero n)).array := by
  have hw : (c.init call P).wp (fun s _ => (P.residualInto P.start (Vec.zero n)).fault = none ∧
      s.iteration = Iteration.begun s.method P (P.residualInto P.start (Vec.zero n)).array)
      (fun _ _ => True) () := by
    refine wp_init fun o _ => ?_
    rw [Session.wp_start]
    exact Iteration.wp_start_begun
  exact hw.of_ok h.returned

theorem Started.works (h : Started call P c s) : Works call P c s :=
  ⟨h.algorithm, h.options, h.problem, P, s, rfl, h⟩

theorem keeps_step_works :
    (Session.step : Act Float (Session Float n) Unit).Keeps (Works call P c) :=
  fun s h => ⟨h.algorithm, h.options,
    (Iteration.step_problem s.method_advance_at s.iteration).trans h.problem, h.accepted⟩

theorem keeps_solve_works :
    (Session.solve : Act Float (Session Float n) (Run Float n)).Keeps (Works call P c) :=
  fun s h => ⟨h.algorithm, h.options, s.driven_problem.trans h.problem, h.accepted⟩

/-- Started over, a session is the one that its candidate is set to work with. -/
theorem Works.wp_reinit (h : Works call P c s) (hw : P.system.Overwrites) {start : Value}
    {parameter : Option (Parameter Float)} {xs : Option (List Float)}
    (hxs : ∀ P', P.remake xs parameter = .ok P' → P.Remade start parameter P') :
    (Session.reinit xs parameter).wp
      (fun _ s' => ∃ P', P.Remade start parameter P' ∧ Works call P' c s' ∧
        (c.init call P').Returns () s' ())
      (fun _ s' => ∃ P', P'.system = P.system ∧ Works call P' c s') s := by
  obtain ⟨halgorithm, hoptions, rfl, P₀, s₀, hs₀, h₀⟩ := h
  refine (Session.wp_reinit_fresh hw xs parameter).mono (fun _ s' h => ?_) fun _ s' h => ?_
  · obtain ⟨P', hP, ha, ho, hstart⟩ := h
    have hs : P'.system = P₀.system := (Problem.remake_system hP).trans hs₀.symm
    have hp : s'.problem = P' := by
      have hw : (Session.start s.algorithm s.options P').wp (fun s' _ => s'.problem = P')
          (fun _ _ => True) () :=
        Session.wp_start.mpr (Iteration.wp_start_at.mono (fun _ _ hat => hat.problem)
          fun _ _ h => h)
      exact hstart.wp_iff.mp hw
    have hinit : (c.init call P').Returns () s' () := by
      rw [h₀.init_eq rfl rfl hs, hoptions, ← halgorithm]
      exact hstart
    exact ⟨P', hxs P' hP, ⟨ha.trans halgorithm, ho ▸ hoptions, hp, P₀, s₀, hs.symm, h₀⟩, hinit⟩
  · obtain ⟨ha, ho, hs⟩ := h
    exact ⟨s'.problem, hs, ha.trans halgorithm, ho ▸ hoptions, rfl, P₀, s₀, hs₀.trans hs.symm, h₀⟩

theorem Works.wp_reinitAt (h : Works call P c s) (hw : P.system.Overwrites) (start : Value)
    (parameter : Option (Parameter Float)) :
    (Session.reinitAt start parameter).wp
      (fun _ s' => ∃ P', P.Remade start parameter P' ∧ Works call P' c s' ∧
        (c.init call P').Returns () s' ())
      (fun _ s' => ∃ P', P'.system = P.system ∧ Works call P' c s') s := by
  unfold Session.reinitAt
  split
  · exact h.wp_reinit hw fun P' hP => Problem.remade_none hP
  · rename_i hs
    rw [Act.wp_bind]
    cases hx : start.startingPoint (α := Float) with
    | error e =>
      rw [Act.wp_ofExcept_error]
      exact ⟨P, rfl, h⟩
    | ok xs => exact h.wp_reinit hw fun P' hP => Problem.remade_some hs hx hP

/-- Whatever is asked of a session, it works on the same system as its candidate does. -/
theorem Started.reached_works {s₀ : Session Float n} (h₀ : Started call P c s₀)
    (hw : P.system.Overwrites) (h : Act.Reached Session.serve (fun _ => True) s₀ s) :
    ∃ P', P'.system = P.system ∧ Works call P' c s := by
  refine h.keeps (P := fun s => ∃ P', P'.system = P.system ∧ Works call P' c s)
    ⟨P, rfl, h₀.works⟩ fun r _ => Session.keeps_request ?_ ?_ (fun start parameter => ?_) r
  · intro s h
    obtain ⟨P', hs, h⟩ := h
    exact ⟨P', hs, keeps_step_works s h⟩
  · intro s h
    obtain ⟨P', hs, h⟩ := h
    exact ⟨P', hs, keeps_solve_works s h⟩
  · refine Act.keeps_of_wp fun s h => ?_
    obtain ⟨P', hs, h⟩ := h
    refine (h.wp_reinitAt (hs ▸ hw) start parameter).mono (fun _ s' h' => ?_) fun _ s' h' => ?_
    · obtain ⟨P'', hP, h'', -⟩ := h'
      exact ⟨P'', hP.system.trans hs, h''⟩
    · obtain ⟨P'', hP, h''⟩ := h'
      exact ⟨P'', hP.trans hs, h''⟩

end Candidate

section Each

variable {κ : Type} {R R' : κ → σ → Prop} {ks : List κ} {ss : List σ}

omit [Scalar α]

/-- What leads each state to one that is related to the same key leads all of them there. -/
theorem Act.wp_each_forall₂ {x : Act α σ Unit}
    (hx : ∀ k s, R k s → x.wp (fun _ => R' k) (fun _ _ => True) s)
    (h : List.Forall₂ R ks ss) :
    (each x).wp (fun _ ss' => List.Forall₂ R' ks ss') (fun _ _ => True) ss := by
  induction h with
  | nil => exact .nil
  | cons hr _ ih =>
    rw [wp_each_cons]
    refine (hx _ _ hr).mono (fun _ s' hs' => ?_) fun _ _ _ => trivial
    exact ih.mono (fun _ _ h => .cons hs' h) fun _ _ h => h

theorem Act.returns_mapM {f : κ → Act α Unit β} {bs : List β}
    (h : List.Forall₂ (fun k b => (f k).Returns () b ()) ks bs) :
    (ks.mapM f).Returns () bs () := by
  apply returns_of_wp
  induction h with
  | nil => exact ⟨rfl, rfl⟩
  | cons hb _ ih =>
    rw [List.mapM_cons, wp_bind, hb.wp_iff, wp_bind]
    refine ih.mono (fun bs' _ h => ?_) fun _ _ h => h
    obtain ⟨rfl, -⟩ := h
    exact ⟨rfl, rfl⟩

theorem forall₂_set (h : List.Forall₂ R ks ss) {i : Nat} {s s' : σ} (hi : ss[i]? = some s)
    (hs : ∀ k, R k s → R k s') : List.Forall₂ R ks (ss.set i s') := by
  induction h generalizing i with
  | nil => exact .nil
  | cons hr h ih =>
    cases i with
    | zero =>
      obtain rfl := Option.some.inj hi
      exact .cons (hs _ hr) h
    | succ i => exact .cons hr (ih hi)

/-- What each pair has one of, and all can have only one of, they have in common. -/
theorem forall₂_common {Q : β → Prop} {S : β → κ → σ → Prop}
    (h : List.Forall₂ (fun k s => ∃ b, Q b ∧ S b k s) ks ss) (hne : ss ≠ [])
    (hQ : ∀ b b', Q b → Q b' → b = b') : ∃ b, Q b ∧ List.Forall₂ (S b) ks ss := by
  have hall : ∀ b, Q b → List.Forall₂ (S b) ks ss := by
    intro b hb
    refine h.imp fun k s hs => ?_
    obtain ⟨b', hb', hs⟩ := hs
    rwa [hQ b b' hb hb']
  cases h with
  | nil => exact absurd rfl hne
  | cons hs _ =>
    obtain ⟨b, hb, -⟩ := hs
    exact ⟨b, hb, hall b hb⟩

end Each

namespace Warm

variable {call : Call} {P : Problem Float n} {owner : Solver} {cs : List Candidate}
  {w w₀ : Warm Float n}

theorem returns_setCurrent_first (w : Warm Float n) :
    (setCurrent (.int 0)).Returns w () { w with current := 0 } := by
  apply Act.returns_of_wp
  have hread : (Value.int 0).truncated = .ok 0 := rfl
  have hrange : (0 : Int) ≤ 0 ∧ (0 : Int) ≤ w.sessions.length := by omega
  rw [setCurrent, Act.wp_bind, Act.wp_read, hread]
  simp only
  rw [if_pos hrange]
  exact ⟨trivial, rfl⟩

variable [LinearRoutines Float]

structure Works (call : Call) (P : Problem Float n) (owner : Solver) (cs : List Candidate)
    (w : Warm Float n) : Prop where
  owner : w.owner = owner
  nonempty : w.sessions ≠ []
  sessions : List.Forall₂ (Candidate.Works call P) cs w.sessions

theorem Fresh.works (h : Fresh call P owner cs w) : Works call P owner cs w :=
  ⟨h.owner, h.nonempty, h.started.imp fun _ _ hs => hs.works⟩

theorem Works.problem? (h : Works call P owner cs w) : w.problem? = some P := by
  obtain ⟨-, hne, hs⟩ := h
  unfold Warm.problem?
  generalize w.sessions = ss at hne hs
  cases hs with
  | nil => exact absurd rfl hne
  | cons hs _ => rw [List.head?_cons, Option.map_some, hs.problem]

theorem keeps_on_works {x : Act Float (Session Float n) β}
    (hx : ∀ c, x.Keeps (Candidate.Works call P c)) (i : Nat) :
    (on i x).Keeps (Works call P owner cs) := by
  apply Act.keeps_of_wp
  intro w h
  cases hi : w.sessions[i]? with
  | none =>
    rw [wp_on_none hi]
    exact h
  | some s =>
    have hset : ∀ t, (x.run s).state = t →
        Works call P owner cs { w with sessions := w.sessions.set i t } := by
      intro t ht
      refine ⟨h.owner, by simpa using h.nonempty, forall₂_set h.sessions hi fun c hc => ?_⟩
      exact ht ▸ hx c s hc
    rw [wp_on hi]
    exact (Act.wp_self x s).mono (fun _ t ht => hset t ht.2) fun _ t ht => hset t ht.2

/-- Every request but a restart leaves the sessions with their problem. -/
theorem keeps_serve_works {r : Request} (hr : r.Joint)
    (hn : ∀ start parameter, r ≠ .reinit start parameter) :
    (serve r).Keeps (Works call P owner cs) := by
  have hsolve : ∀ i, (on i Session.solve).Keeps (Works call P owner cs) :=
    keeps_on_works fun _ => Candidate.keeps_solve_works
  have hcursor : ∀ (w : Warm Float n) (k : Nat), Works call P owner cs w →
      Works call P owner cs { w with current := k } :=
    fun _ _ h => ⟨h.owner, h.nonempty, h.sessions⟩
  cases r with
  | performStep => exact (keeps_performStep hsolve).bind fun _ => Act.keeps_pure _
  | solve => exact (keeps_solve hsolve hcursor).bind fun _ => Act.keeps_pure _
  | setCurrent value => exact (keeps_setCurrent hcursor value).bind fun _ => Act.keeps_pure _
  | reinit start parameter => exact absurd rfl (hn start parameter)
  | one i request =>
    cases request with
    | step =>
      exact keeps_on_works (fun _ => Candidate.keeps_step_works.bind fun _ => Act.keeps_pure _) i
    | solve =>
      exact keeps_on_works (fun _ => Candidate.keeps_solve_works.bind fun _ => Act.keeps_pure _) i
    | reinit start parameter => exact hr.elim

/-- Started over, kept sessions are those that the candidates are set to work with, but for the
cursor. -/
theorem Works.wp_reinitAt (h : Works call P owner cs w) (hw : P.system.Overwrites) (start : Value)
    (parameter : Option (Parameter Float)) :
    (reinitAt start parameter).wp
      (fun _ w' => ∃ P', P.Remade start parameter P' ∧ Works call P' owner cs w' ∧
        (ofCandidates owner cs call P').Returns () { w' with current := 0 } ())
      (fun _ _ => True) w := by
  have hreinit : ∀ xs : Option (List Float),
      (∀ P', P.remake xs parameter = .ok P' → P.Remade start parameter P') →
      (reinit xs parameter).wp
        (fun _ w' => ∃ P', P.Remade start parameter P' ∧ Works call P' owner cs w' ∧
          (ofCandidates owner cs call P').Returns () { w' with current := 0 } ())
        (fun _ _ => True) w := by
    intro xs hxs
    have hone : ∀ (c : Candidate) (s : Session Float n), Candidate.Works call P c s →
        (Session.reinit xs parameter).wp (fun _ s' => ∃ P', P.Remade start parameter P' ∧
          Candidate.Works call P' c s' ∧ (c.init call P').Returns () s' ())
          (fun _ _ => True) s := by
      intro c s hs
      exact (hs.wp_reinit hw hxs).mono (fun _ _ h => h) fun _ _ _ => trivial
    unfold reinit
    rw [Act.wp_zoom]
    refine (Act.wp_each_forall₂ hone h.sessions).mono (fun _ ss hss => ?_) fun _ _ _ => trivial
    have hne : ss ≠ [] := by
      rw [← List.length_pos_iff, ← hss.length_eq, h.sessions.length_eq]
      exact List.length_pos_iff.mpr h.nonempty
    obtain ⟨P', hP, hss⟩ := forall₂_common hss hne fun _ _ hP hP' => hP.unique hP'
    have hinit := Act.returns_mapM (hss.imp fun _ _ hs => hs.2)
    refine ⟨P', hP, ⟨h.owner, hne, hss.imp fun _ _ hs => hs.1⟩, Act.returns_of_wp ?_⟩
    rw [ofCandidates, Act.wp_bind, hinit.wp_iff, ofSessions, if_neg (by simpa using hne),
      Act.wp_ofExcept_ok, h.owner]
    exact ⟨rfl, rfl⟩
  unfold reinitAt
  split
  · exact hreinit none fun P' hP => Problem.remade_none hP
  · rename_i hs
    rw [Act.wp_bind]
    cases hx : start.startingPoint (α := Float) with
    | error e => trivial
    | ok xs => exact hreinit (some xs) fun P' hP => Problem.remade_some hs hx hP

/-- Whatever is asked of kept sessions together, they work on one problem, as long as those
restarts that were asked for were made. -/
theorem Fresh.served_works (h₀ : Fresh call P owner cs w₀) (hw : P.system.Overwrites)
    {rs : List Request}
    (h : Act.Served serve (fun w r => r.Joint ∧
      ∀ start parameter, r = .reinit start parameter → Act.Granted serve w r) w₀ rs w) :
    ∃ P', P'.system = P.system ∧ Works call P' owner cs w := by
  refine h.keeps (P := fun w => ∃ P', P'.system = P.system ∧ Works call P' owner cs w)
    ⟨P, rfl, h₀.works⟩ fun w r hw' hr => ?_
  obtain ⟨P', hs, hw'⟩ := hw'
  obtain ⟨hjoint, hgranted⟩ := hr
  by_cases hre : ∃ start parameter, r = .reinit start parameter
  · obtain ⟨start, parameter, rfl⟩ := hre
    have hwp : (serve (.reinit start parameter)).wp
        (fun _ w' => ∃ P'', P''.system = P.system ∧ Works call P'' owner cs w')
        (fun _ _ => True) w := by
      rw [serve, Act.wp_bind]
      refine (hw'.wp_reinitAt (hs ▸ hw) start parameter).mono (fun _ w' h => ?_)
        fun _ _ _ => trivial
      obtain ⟨P'', hP, hw'', -⟩ := h
      exact ⟨P'', hP.system.trans hs, hw''⟩
    have hok := hgranted start parameter rfl
    unfold Act.Granted at hok
    cases hr : ((serve (.reinit start parameter)).run w).result with
    | error e => rw [hr] at hok; cases hok
    | ok b => exact hwp.of_ok hr
  · exact ⟨P', hs, keeps_serve_works hjoint (fun start parameter he =>
      hre ⟨start, parameter, he⟩) w hw'⟩

end Warm

/-- Starting over is starting afresh. Of a system that stores every component it evaluates, a
session that was started over is the one that its candidate is set to work with on the problem as
remade, in whatever state it was before. Kept sessions on one problem, all started over, are those
that the candidates are set to work with on it as remade, once the cursor is back on the first; so
a solve ends the same. -/
theorem restart_is_fresh_start [LinearRoutines Float] {problem : Problem Float n}
    (hw : problem.system.Overwrites) (call : Call) :
    (∀ (c : Candidate) (s₀ s : Session Float n),
      ((c.init call problem).run ()).result = .ok s₀ →
      Act.Reached Session.serve (fun _ => True) s₀ s → ∀ start parameter s',
        (Session.reinitAt start parameter).Returns s () s' →
        ∃ P, s.problem.Remade start parameter P ∧ (c.init call P).Returns () s' ()) ∧
    ∀ (owner : Solver) (cs : List Candidate) (w₀ w : Warm Float n) (rs : List Warm.Request),
      ((Warm.ofCandidates owner cs call problem).run ()).result = .ok w₀ →
      Act.Served Warm.serve (fun w r => r.Joint ∧
        ∀ start parameter, r = .reinit start parameter → Act.Granted Warm.serve w r) w₀ rs w →
      ∀ start parameter w', (Warm.reinitAt start parameter).Returns w () w' →
        ∃ P₀ P, w.problem? = some P₀ ∧ P₀.Remade start parameter P ∧
          (Warm.setCurrent (.int 0)).Returns w' () { w' with current := 0 } ∧
          (Warm.ofCandidates owner cs call P).Returns () { w' with current := 0 } () ∧
          ((Warm.setCurrent (.int 0) >>= fun _ => Warm.solve).run w').result =
            ((Warm.ofCandidates owner cs call P >>= fun w => Act.within w Warm.solve).run
              ()).result := by
  refine ⟨fun c s₀ s h₀ hs start parameter s' hr => ?_,
    fun owner cs w₀ w rs h₀ h start parameter w' hr => ?_⟩
  · obtain ⟨P, hP, hworks⟩ := (Candidate.started h₀).reached_works hw hs
    obtain ⟨P', hrem, -, hinit⟩ := hr.wp_iff.mp
      (hworks.wp_reinitAt (hP ▸ hw) start parameter)
    rw [hworks.problem]
    exact ⟨P', hrem, hinit⟩
  · obtain ⟨P, hP, hworks⟩ := (Warm.fresh_ofCandidates h₀).served_works hw h
    obtain ⟨P', hrem, hworks', hinit⟩ := hr.wp_iff.mp
      (hworks.wp_reinitAt (hP ▸ hw) start parameter)
    refine ⟨P, P', hworks.problem?, hrem, w'.returns_setCurrent_first, hinit, ?_⟩
    rw [w'.returns_setCurrent_first.bind_result, hinit.bind_result]
    rfl

/-- The square root of two with the residual stored in place. -/
def storedParabola : Problem Float 1 :=
  ⟨.inPlace (fun u _ => ⟨[(0, u[0] * u[0] - 2.0)], none⟩)
    (some fun u _ => ⟨[((0, 0), 2.0 * u[0])], none⟩), .replicate 1 1.5, .absent⟩

/-- Methods that solve systems in place. -/
def steadyCouple : List Candidate :=
  [.newton none Settings.initial, .customary .simple Settings.initial]

theorem restart_is_fresh_start_stored :
    storedParabola.system.Overwrites ∧
    (∃ s₀ s' P,
      (((Candidate.customary .simple Settings.initial).init .plain storedParabola).run ()).result =
        .ok s₀ ∧
      (Session.reinitAt (.num 3.0) none).Returns ((Session.serve .step).run s₀).state () s' ∧
      ((Candidate.customary .simple Settings.initial).init .plain P).Returns () s' ()) ∧
    ∃ w₀ w' P,
      ((Warm.ofCandidates ⟨"pair", "pair"⟩ steadyCouple .plain storedParabola).run ()).result =
        .ok w₀ ∧
      (Warm.reinitAt .none (some .absent)).Returns ((Warm.serve .solve).run
        ((Warm.serve (.reinit (.num 3.0) none)).run w₀).state).state () w' ∧
      (Warm.ofCandidates ⟨"pair", "pair"⟩ steadyCouple .plain P).Returns ()
        { w' with current := 0 } () := by
  have hw : storedParabola.system.Overwrites := by
    intro u p _ i
    obtain rfl : i = 0 := Subsingleton.elim i 0
    exact ⟨_, List.mem_singleton_self _⟩
  have hs : ((((Candidate.customary .simple Settings.initial).init .plain storedParabola).run
      ()).result.map fun s => ((Session.reinitAt (.num 3.0) none).run
        ((Session.serve .step).run s).state).result.isOk).toOption = some true := by
    decide +kernel
  have hv : (((Warm.ofCandidates ⟨"pair", "pair"⟩ steadyCouple .plain storedParabola).run
      ()).result.map fun w => (((Warm.serve (.reinit (.num 3.0) none)).run w).result.isOk,
        ((Warm.reinitAt .none (some .absent)).run ((Warm.serve .solve).run
          ((Warm.serve (.reinit (.num 3.0) none)).run w).state).state).result.isOk)).toOption =
      some (true, true) := by decide +kernel
  obtain ⟨hsession, hwarm⟩ := restart_is_fresh_start hw .plain
  refine ⟨hw, ?_, ?_⟩
  · cases h₀ : (((Candidate.customary .simple Settings.initial).init .plain storedParabola).run
      ()).result with
    | error e => rw [h₀] at hs; cases hs
    | ok s₀ =>
      rw [h₀] at hs
      have hret := Act.returns_of_isOk (Option.some.inj hs)
      obtain ⟨P, -, hP⟩ := hsession _ s₀ _ h₀ (.after .start .step trivial) _ _ _ hret
      exact ⟨s₀, _, P, rfl, hret, hP⟩
  · cases h₀ : ((Warm.ofCandidates ⟨"pair", "pair"⟩ steadyCouple .plain storedParabola).run
      ()).result with
    | error e => rw [h₀] at hv; cases hv
    | ok w₀ =>
      rw [h₀] at hv
      obtain ⟨hgranted, hok⟩ := Prod.mk.inj (Option.some.inj hv)
      have hret := Act.returns_of_isOk hok
      obtain ⟨P₀, P, -, -, -, hP, -⟩ := hwarm _ _ w₀ _ [.reinit (.num 3.0) none, .solve] h₀
        (.more ⟨trivial, fun _ _ _ => hgranted⟩ (.more ⟨trivial, nofun⟩ (.none _))) _ _ _ hret
      exact ⟨w₀, _, P, rfl, hret, hP⟩

end Rootfinder
