import Mathlib.Data.List.Forall2
import Rootfinder.Polyalgorithm
import Rootfinder.Proofs.Sessions

namespace Rootfinder

variable {n : Nat} {call : Call} {problem : Problem Float n}

theorem except_bind_ok {ε β γ : Type} {x : Except ε β} {f : β → Except ε γ} {c : γ}
    (h : x >>= f = .ok c) : ∃ b, x = .ok b ∧ f b = .ok c := by
  cases x with
  | error e => cases h
  | ok b => exact ⟨b, rfl, h⟩

theorem except_map_ok {ε β γ : Type} {x : Except ε β} {f : β → γ} {c : γ}
    (h : x.map f = .ok c) : ∃ b, x = .ok b ∧ f b = c := by
  cases x with
  | error e => cases h
  | ok b => exact ⟨b, rfl, Except.ok.inj h⟩

/-- What is seen of a value shows that there is one. -/
theorem except_shown {ε β γ : Type} {x : Except ε β} {f : β → γ} {c : γ}
    (h : (x.map f).toOption = some c) : ∃ b, x = .ok b ∧ f b = c := by
  cases x with
  | error e => cases h
  | ok b => exact ⟨b, rfl, Option.some.inj h⟩

/-- The options of a call are under its norm. -/
theorem Call.options_norm {o : Options Float} (h : call.options = .ok o) :
    o.norm = call.normOrDefault := by
  unfold Call.options at h
  simp only at h
  split at h
  · cases h
  · obtain ⟨-, -, h⟩ := except_bind_ok h
    obtain ⟨tolerance, -, h⟩ := except_bind_ok h
    obtain ⟨-, -, h⟩ := except_bind_ok h
    obtain ⟨budget, -, h⟩ := except_bind_ok h
    obtain ⟨-, -, h⟩ := except_bind_ok h
    obtain ⟨tolerance, -, h⟩ := except_bind_ok h
    obtain ⟨budget, -, h⟩ := except_bind_ok h
    obtain rfl := Except.ok.inj h
    rfl

theorem Session.wp_start {a : Algorithm Float} {o : Options Float}
    {post : Session Float n → Unit → Prop} {broken : Fault Float → Unit → Prop} :
    (Session.start a o problem).wp post broken () ↔
      (Iteration.start (a.method o n) problem).wp (fun it _ => post ⟨a, o, it⟩ ()) broken () := by
  rw [Session.start, Act.wp_bind]
  rfl

namespace Candidate

variable [LinearRoutines Float]

/-- A candidate that is set to work starts its algorithm under the options of the call. -/
theorem wp_init {c : Candidate} {post : Session Float n → Unit → Prop}
    (h : ∀ o, call.options = .ok o →
      (Session.start c.algorithm o problem).wp post (fun _ _ => True) ()) :
    (c.init call problem).wp post (fun _ _ => True) () := by
  unfold init
  split
  · trivial
  · split
    · trivial
    · simp only
      split
      · trivial
      · cases ho : call.options with
        | error e => trivial
        | ok o => exact h o ho

structure Started (call : Call) (problem : Problem Float n) (c : Candidate) (s : Session Float n) :
    Prop where
  returned : ((c.init call problem).run ()).result = .ok s
  algorithm : s.algorithm = c.algorithm
  options : call.options = .ok s.options
  problem : s.problem = problem

theorem started {c : Candidate} {s : Session Float n}
    (h : ((c.init call problem).run ()).result = .ok s) : Started call problem c s := by
  have hw : (c.init call problem).wp (fun s _ => s.algorithm = c.algorithm ∧
      call.options = .ok s.options ∧ s.problem = problem) (fun _ _ => True) () := by
    refine wp_init fun o ho => ?_
    rw [Session.wp_start]
    exact Iteration.wp_start_at.mono (fun _ _ hat => ⟨rfl, ho, hat.problem⟩) fun _ _ h => h
  obtain ⟨ha, ho, hp⟩ := hw.of_ok h
  exact ⟨h, ha, ho, hp⟩

/-- Whether a candidate is accepted depends on the number and the names of the arguments and on the
calling convention of the system. -/
theorem Started.init_eq {c : Candidate} {s : Session Float n} (h : Started call problem c s)
    {call' : Call} (hextra : call'.extra = call.extra) (hfurther : call'.further = call.further)
    {P : Problem Float n} (hs : P.system = problem.system) :
    c.init call' P = (do
      let o ← Act.ofExcept call'.options
      Session.start c.algorithm o P) := by
  have hclash : call'.clash? = call.clash? := by rw [Call.clash?, Call.clash?, hfurther]
  have hr := h.returned
  unfold init at hr ⊢
  rw [hclash, hextra, hs]
  split at hr
  · cases hr
  · split at hr
    · cases hr
    · simp only at hr ⊢
      split at hr
      · cases hr
      · rw [if_neg ‹¬ 0 < call.extra›, if_neg ‹_›]

/-- A session that was just started has made no step. -/
theorem Started.steps {c : Candidate} {s : Session Float n} (h : Started call problem c s) :
    s.iteration.stats.nsteps = 0 := by
  have hw : (c.init call problem).wp (fun s _ => s.iteration.stats.nsteps = 0)
      (fun _ _ => True) () := by
    refine wp_init fun o ho => ?_
    rw [Session.wp_start]
    exact Iteration.wp_start_at.mono (fun _ _ hat => hat.steps) fun _ _ h => h
  exact hw.of_ok h.returned

/-- A candidate that is solved at once arrives where its session does. -/
theorem Started.solve_result {c : Candidate} {s : Session Float n} (h : Started call problem c s) :
    ((c.solve call problem).run ()).result = s.outcome := by
  rcases hr : (c.init call problem).run () with ⟨r, u, t⟩
  have hs := h.returned
  rw [hr] at hs
  obtain rfl : r = .ok s := hs
  rw [solve, Act.run_bind_ok hr]
  rfl

/-- Candidates that were set to work in order. -/
theorem mapM_init {cs : List Candidate} {ss : List (Session Float n)}
    (h : ((cs.mapM fun c : Candidate => c.init call problem).run ()).result = .ok ss) :
    List.Forall₂ (Started call problem) cs ss := by
  have hw : (cs.mapM fun c : Candidate => c.init call problem).wp
      (fun ss _ => List.Forall₂ (Started call problem) cs ss) (fun _ _ => True) () := by
    clear h
    induction cs with
    | nil => exact .nil
    | cons c cs ih =>
      rw [List.mapM_cons, Act.wp_bind]
      refine (Act.wp_self _ _).mono (fun s _ hs => ?_) fun _ _ _ => trivial
      rw [Act.wp_bind]
      exact ih.mono (fun ss _ hss => .cons (started hs.1) hss) fun _ _ h => h
  exact hw.of_ok h

end Candidate

theorem forall₂_mem {β γ : Type} {R : β → γ → Prop} {bs : List β} {cs : List γ}
    (h : List.Forall₂ R bs cs) {c : γ} (hc : c ∈ cs) : ∃ b ∈ bs, R b c := by
  induction h with
  | nil => cases hc
  | cons hr _ ih =>
    rcases List.mem_cons.mp hc with rfl | hm
    · exact ⟨_, List.mem_cons_self, hr⟩
    · obtain ⟨b, hb, hr'⟩ := ih hm
      exact ⟨b, List.mem_cons_of_mem _ hb, hr'⟩

namespace Warm

variable {owner : Solver} {cs : List Candidate} {w : Warm Float n}

variable [LinearRoutines Float]

/-- Sessions of candidates that were all accepted, under a cursor on the first. -/
structure Fresh (call : Call) (problem : Problem Float n) (owner : Solver) (cs : List Candidate)
    (w : Warm Float n) : Prop where
  owner : w.owner = owner
  current : w.current = 0
  nonempty : w.sessions ≠ []
  started : List.Forall₂ (Candidate.Started call problem) cs w.sessions

theorem fresh_ofCandidates
    (h : ((ofCandidates owner cs call problem).run ()).result = .ok w) :
    Fresh call problem owner cs w := by
  have hw : (ofCandidates owner cs call problem).wp
      (fun w _ => Fresh call problem owner cs w) (fun _ _ => True) () := by
    unfold ofCandidates
    rw [Act.wp_bind]
    refine (Act.wp_self _ _).mono (fun ss _ hs => ?_) fun _ _ _ => trivial
    unfold ofSessions
    split
    · trivial
    · rename_i hne
      exact ⟨rfl, rfl, by simpa using hne, Candidate.mapM_init hs.1⟩
  exact hw.of_ok h

theorem Fresh.mem (h : Fresh call problem owner cs w) {s : Session Float n}
    (hs : s ∈ w.sessions) : ∃ c ∈ cs, Candidate.Started call problem c s :=
  forall₂_mem h.started hs

theorem Fresh.head (h : Fresh call problem owner cs w) :
    ∃ c s, w.sessions.head? = some s ∧ Candidate.Started call problem c s := by
  obtain ⟨-, -, hne, hs⟩ := h
  generalize w.sessions = ss at hne hs
  cases hs with
  | nil => exact absurd rfl hne
  | cons hs _ => exact ⟨_, _, rfl, hs⟩

theorem Fresh.problem? (h : Fresh call problem owner cs w) : w.problem? = some problem := by
  obtain ⟨c, s, hh, hs⟩ := h.head
  rw [Warm.problem?, hh, Option.map_some, hs.problem]

theorem Fresh.norm (h : Fresh call problem owner cs w) : w.norm = call.normOrDefault := by
  obtain ⟨c, s, hh, hs⟩ := h.head
  rw [Warm.norm, hh, Option.map_some, Option.getD_some, Call.options_norm hs.options]

end Warm

/-- The square root of two as the solution of a system. -/
def parabola : Problem Float 1 :=
  ⟨.outOfPlace (fun u _ => .ok (u.map fun x => x * x - 2.0))
    (some fun u _ => .ok (u.map fun x => .replicate 1 (2.0 * x))), .replicate 1 1.5, .absent⟩

/-- A singular linear system: one equation for two unknowns, and one that always holds. -/
def ridge (start : Vec Float 2) : Problem Float 2 :=
  let A : Mat Float 2 2 := #v[#v[1.0, 0.0], #v[0.0, 0.0]]
  ⟨.outOfPlace (fun u _ => .ok (A.mulVec u)) (some fun _ _ => .ok A), start, .absent⟩

/-- A candidate that fails, and one that solves the parabola. -/
def oddCouple : List Candidate :=
  [.replay ⟨"stubborn", some .stalled, [1.0], [0.5], 1, true⟩ Settings.initial,
    .newton none Settings.initial]

end Rootfinder
