import Rootfinder.Proofs.Candidates
import Rootfinder.Proofs.History
import Rootfinder.Proofs.OneShot
import Rootfinder.Proofs.Residual

namespace Rootfinder

section Sessions

variable {α : Type} [Scalar α] {n : Nat} {F : Vec α n → Parameter α → Vec α n} {o : Options α}

/-- A solution shows the residual of its problem at its point, and claims success of a finite
residual norm within the tolerance only. -/
structure Solution.Sound (F : Vec α n → Parameter α → Vec α n) (o : Options α)
    (sol : Solution α n) : Prop where
  residual : ∃ P ∈ sol.problem, P.system.Computes F ∧ sol.resid = F sol.u P.parameter
  success : sol.code = .success →
    Scalar.isFinite (o.norm.of sol.resid) = true ∧ o.norm.of sol.resid ≤ o.tolerance

namespace Session

structure Sound (F : Vec α n → Parameter α → Vec α n) (o : Options α) (s : Session α n) :
    Prop where
  builtIn : s.algorithm.BuiltIn
  options : s.options = o
  iteration : s.iteration.Sound F o

structure SoundAt (F : Vec α n → Parameter α → Vec α n) (o : Options α) (P : Problem α n)
    (s : Session α n) : Prop extends Sound F o s where
  problem : s.problem = P

theorem Sound.snapshot {s : Session α n} (h : s.Sound F o) : s.snapshot.toSolution.Sound F o :=
  ⟨⟨s.problem, rfl, h.iteration.computes, h.iteration.residual⟩, h.iteration.success⟩

theorem Sound.wrap {s : Session α n} (h : s.Sound F o) (owner : Solver) (i : Nat)
    (records : List (AttemptRecord α)) {code : ReturnCode}
    (hc : code = .success → s.snapshot.code = .success) :
    (s.snapshot.wrap owner (some s.problem) i records code).Sound F o :=
  ⟨⟨s.problem, rfl, h.iteration.computes, h.iteration.residual⟩,
    fun hs => h.iteration.success (hc hs)⟩

theorem advance_underway {s : Session α n} (hb : s.algorithm.BuiltIn) {P : Problem α n}
    (hF : P.system.Computes F) : s.method.advance.Keeps (Iteration.Underway P F) :=
  Algorithm.keeps_advance hb s.options (Iteration.stable_underway hF)

theorem method_options (s : Session α n) : s.method.options = s.options :=
  s.algorithm.method_options s.options

theorem keeps_step_sound : (step : Act α (Session α n) Unit).Keeps (Sound F o) := by
  intro s h
  obtain ⟨hb, rfl, hi⟩ := h
  have hk := Iteration.keeps_step (F := F) (m := s.method) fun P hP => advance_underway hb hP
  rw [method_options] at hk
  exact ⟨hb, rfl, hk s.iteration hi⟩

theorem keeps_solve_sound : (solve : Act α (Session α n) (Run α n)).Keeps (Sound F o) := by
  intro s h
  obtain ⟨hb, rfl, hi⟩ := h
  have hk := Iteration.keeps_solve_of_step
    (Iteration.keeps_step (F := F) (m := s.method) fun P hP => advance_underway hb hP)
  rw [method_options] at hk
  exact ⟨hb, rfl, hk s.iteration hi⟩

theorem keeps_step_at {P : Problem α n} :
    (step : Act α (Session α n) Unit).Keeps (SoundAt F o P) := fun s h =>
  ⟨keeps_step_sound s h.toSound,
    (Iteration.step_problem s.method_advance_at s.iteration).trans h.problem⟩

theorem keeps_solve_at {P : Problem α n} :
    (solve : Act α (Session α n) (Run α n)).Keeps (SoundAt F o P) := fun s h =>
  ⟨keeps_solve_sound s h.toSound, s.driven_problem.trans h.problem⟩

/-- Starting over leads to the problem made from the stored one, or changes nothing. -/
theorem wp_reinit_sound {s : Session α n} (h : s.Sound F o) (start : Option (List α))
    (parameter : Option (Parameter α)) :
    (reinit start parameter).wp
      (fun _ s' => s'.Sound F o ∧ s.problem.remake start parameter = .ok s'.problem)
      (fun _ s' => s' = s ∧ ∃ e, s.problem.remake start parameter = .error e) s := by
  obtain ⟨hb, rfl, hi⟩ := h
  rw [reinit, wp_on]
  refine (Iteration.wp_reinit hi start parameter).mono ?_ ?_
  · intro _ it h'
    obtain ⟨hs, hp⟩ := h'
    exact ⟨⟨hb, rfl, hs⟩, hp⟩
  · intro e it h'
    obtain ⟨rfl, he⟩ := h'
    exact ⟨rfl, he⟩

theorem keeps_reinit_sound (start : Option (List α)) (parameter : Option (Parameter α)) :
    (reinit start parameter : Act α (Session α n) Unit).Keeps (Sound F o) := by
  apply Act.keeps_of_wp
  intro s h
  refine (wp_reinit_sound h start parameter).mono (fun _ _ h' => h'.1) ?_
  intro _ s' h'
  obtain ⟨rfl, -⟩ := h'
  exact h

end Session

namespace Warm

def Joint (F : Vec α n → Parameter α → Vec α n) (o : Options α) (w : Warm α n) : Prop :=
  ∃ P, w.All (Session.SoundAt F o P)

theorem Joint.sound {w : Warm α n} (h : w.Joint F o) : w.All (Session.Sound F o) := by
  obtain ⟨P, hw⟩ := h
  exact fun s hs => (hw s hs).toSound

theorem keeps_joint {β : Type} {x : Act α (Warm α n) β}
    (h : ∀ P, x.Keeps (All (Session.SoundAt F o P))) : x.Keeps (Joint F o) := by
  intro w h'
  obtain ⟨P, hw⟩ := h'
  exact ⟨P, h P w hw⟩

/-- The problem is remade for all sessions, or refused by the first of them. -/
theorem keeps_reinit_joint (start : Option (List α)) (parameter : Option (Parameter α)) :
    (reinit start parameter : Act α (Warm α n) Unit).Keeps (Joint F o) := by
  intro w h'
  obtain ⟨P, hw⟩ := h'
  cases hr : P.remake start parameter with
  | error e =>
    refine ⟨P, keeps_reinit (Act.keeps_of_wp fun s hs => ?_) w hw⟩
    refine (Session.wp_reinit_sound hs.toSound start parameter).mono ?_ ?_
    · intro _ s' h'
      obtain ⟨-, hp⟩ := h'
      rw [hs.problem, hr] at hp
      cases hp
    · intro _ s' h'
      obtain ⟨rfl, -⟩ := h'
      exact hs
  | ok P' =>
    have hone : ∀ s : Session α n, s.SoundAt F o P → (Session.reinit start parameter).wp
        (fun _ s' => s'.SoundAt F o P') (fun _ _ => False) s := by
      intro s hs
      refine (Session.wp_reinit_sound hs.toSound start parameter).mono ?_ ?_
      · intro _ s' h'
        obtain ⟨hs', hp⟩ := h'
        rw [hs.problem, hr] at hp
        exact ⟨hs', (Except.ok.inj hp).symm⟩
      · intro _ s' h'
        obtain ⟨-, e, he⟩ := h'
        rw [hs.problem, hr] at he
        cases he
    obtain ⟨_, ss, hret, hss⟩ := (Act.wp_each hone hw).returns
    refine ⟨P', fun s hs => hss s ?_⟩
    rw [← hret.2]
    exact hs

/-- Solutions that show a session as it is, by itself or as the choice among all. -/
inductive Shows (w : Warm α n) : Solution α n → Prop where
  | single {s : Session α n} (hs : s ∈ w.sessions) : Shows w s.snapshot.toSolution
  | chosen {s : Session α n} (hs : s ∈ w.sessions) (owner : Solver) (i : Nat)
      (records : List (AttemptRecord α)) {code : ReturnCode}
      (hc : code = .success → s.snapshot.code = .success) :
    Shows w (s.snapshot.wrap owner w.problem? i records code)

theorem Shows.sound {w : Warm α n} {sol : Solution α n} (h : w.Shows sol) (hw : w.Joint F o) :
    sol.Sound F o := by
  obtain ⟨P, hw⟩ := hw
  cases h with
  | single hs => exact (hw _ hs).toSound.snapshot
  | @chosen s hs owner i records code hc =>
    have hp : w.problem? = some s.problem := by
      rw [(hw s hs).problem, problem?]
      cases hl : w.sessions with
      | nil => rw [hl] at hs; cases hs
      | cons t ts => exact congrArg some (hw t (by rw [hl]; exact List.mem_cons_self)).problem
    rw [hp]
    exact (hw s hs).toSound.wrap owner i records hc

/-- Even where sessions have problems of their own, a run is sound by itself. -/
theorem Shows.original {w : Warm α n} {sol : Solution α n} (h : w.Shows sol)
    (hw : w.All (Session.Sound F o)) :
    (∀ run ∈ sol.original, run.toSolution.Sound F o) ∧ (sol.original = none → sol.Sound F o) := by
  cases h with
  | single hs => exact ⟨fun run hr => (by cases hr), fun _ => (hw _ hs).snapshot⟩
  | chosen hs owner i records hc =>
    refine ⟨fun run hr => ?_, fun hn => (by cases hn)⟩
    obtain rfl := Option.some.inj hr
    exact (hw _ hs).snapshot

end Warm

end Sessions

end Rootfinder
