import Rootfinder.Proofs.MatrixFree
import Rootfinder.Proofs.RaisingSolves

namespace Rootfinder

open Act Iteration

variable {α β σ : Type} [Scalar α] {n : Nat} {E : Fault α → Prop} {S S' : System α n}

/-- The return code of a step that takes a fault for its own. -/
def Fault.mistakenFor (e : Fault α) : ReturnCode :=
  if e.kind = .linearAlgebra then .failure else .stalled

/-- How a step leaves an iterate that it gives up: the run is over, and nothing moved. -/
structure Iteration.GivesUp (y : Iteration α n σ) (code : ReturnCode) (x : Iteration α n σ) :
    Prop where
  code : x.code = code
  stopped : x.stopped = true
  u : x.u = y.u
  fu : x.fu = y.fu

omit [Scalar α] in
theorem Iteration.GivesUp.terminated {y x : Iteration α n σ} {code : ReturnCode}
    (h : y.GivesUp code x) : x.terminated = true := by
  rw [Iteration.terminated, h.stopped, Bool.true_or]

namespace Newton

variable (search : Option (LineSearch.Params α)) (l : Linearization α) (o : Options α)
  (y : Iteration α n Unit)

/-- A step comes to a fault of a class that it takes for its own: in a linear solve whose products
are differences of residuals, or in its line search. -/
inductive Swallows (e : Fault α) : Prop where
  | solve (matrixFree : l.concrete = false) (differences : y.problem.system.hasJacobian = false)
    (kind : e.kind = .linearAlgebra) (h : SolvesTo l y (.error e))
  | search (h : SearchLoses search l o y e)

variable {search l o y} {e : Fault α}

theorem keeps_searched_still (prm : LineSearch.Params α) (delta : Vec α n) :
    (searched o prm delta).Keeps (Still y) := by
  have hr : LineSearch.Evaluates (fun x r => y.problem.residual x = .ok r) (Still y)
      (evaluate (σ := Unit)) :=
    fun x z hz => (tells_evaluate y x z hz).mono (fun _ _ h => h) fun _ _ h => h.1
  refine Act.keeps_read.bind fun it => Act.keeps_of_wp fun z hz => ?_
  exact (LineSearch.wp_search prm hr _ _ _ _ hz).mono (fun _ _ h => h.1) fun _ _ h => h

theorem Swallows.wp_advance (h : Swallows search l o y e) :
    (advance search l o).wp (fun _ => y.GivesUp e.mistakenFor) (fun _ _ => False) y := by
  rw [advance, Act.wp_bind, Act.wp_read, Act.wp_bind, counting, Act.wp_zoom]
  cases h with
  | solve _ _ hk h =>
    obtain ⟨J, s, hJ, hs⟩ := h
    rw [hJ.wp_iff, Act.wp_bind, Act.wp_attempt, counting, Act.wp_zoom]
    have hmistaken : e.mistakenFor = .failure := if_pos hk
    simp only [Act.wp, hs, if_pos hk]
    exact ⟨hmistaken.symm, rfl, rfl, rfl⟩
  | search h =>
    obtain ⟨hk, prm, A, k, delta, k', rfl, hA, hd, hfinite, hs⟩ := h
    have hmistaken : e.mistakenFor = .stalled := by rw [Fault.mistakenFor, hk]; rfl
    have hstill : Still y ((searched o prm delta).run { y with stats := k' }).state :=
      keeps_searched_still prm delta _ ⟨rfl, rfl, rfl, rfl, rfl⟩
    rw [hA.wp_iff, Act.wp_bind, Act.wp_attempt, counting, Act.wp_zoom, hd.wp_iff]
    simp only [hfinite, if_true]
    rw [follow, Act.wp_bind, Act.wp_read, Act.wp_bind, Act.wp_attempt]
    simp only [Act.wp, hs, if_pos hk]
    exact ⟨hmistaken.symm, rfl, hstill.u, hstill.fu⟩

/-- A step is taken alike on both systems up to the faults that it does not take for its own. -/
theorem advance_upTo_unswallowed (hl : ∀ f ∈ l.preconditioner, f.LetsThrough)
    (hS : S.AgreesUpTo E S') {y' : Iteration α n Unit} (hi : Across S S' y y')
    (hE : ∀ e, E e → ¬ Swallows search l o y e) :
    PairedUpTo E (Across S S') Eq ((advance search l o).run y) ((advance search l o).run y') := by
  have hsearch : ∀ e, E e → ¬ SearchLoses search l o y e := fun e he h => hE e he (.search h)
  -- With a matrix or an analytic Jacobian, the solve evaluates nothing and no fault comes up there.
  by_cases hdata : l.concrete = true ∨ y.problem.system.hasJacobian = true
  · refine advance_upTo search o hS (F := fun _ => False) (fun _ h => h.elim) hi ?_
      (fun _ h => h.elim) hsearch
    refine (Jacobian.upTo_build_data hS hi.system _ _ _ hdata).imp fun A A' hA b u p => ?_
    rw [hA]
    exact lockstep_rfl.upTo
  · obtain ⟨hc, hj⟩ := not_or.mp hdata
    refine advance_upTo search o hS (F := E) (fun _ h => h) hi ?_ (fun e he hk h => ?_) hsearch
    · exact (Jacobian.upTo_build hS hi.system _ _ _ _).imp fun A A' hA b u p =>
        LinearSolver.upTo_solve hl hA b u p
    · exact hE e he (.solve (by simpa using hc) (by simpa using hj) hk h)

end Newton

namespace Algorithm

def LetsThrough : Algorithm α → Prop
  | .newton _ l => ∀ f ∈ l.preconditioner, f.LetsThrough
  | _ => True

def Swallows (o : Options α) : (a : Algorithm α) → Iteration α n (a.Memory n) → Fault α → Prop
  | .newton search l, y => Newton.Swallows search l o y
  | _, _ => fun _ => False

variable {a : Algorithm α} {o : Options α} {y y' : Iteration α n (a.Memory n)}

theorem advance_upTo (ha : a.BuiltIn) (hl : a.LetsThrough) (hS : S.AgreesUpTo E S')
    (hi : Across S S' y y') (hE : ∀ e, E e → ¬ a.Swallows o y e) :
    PairedUpTo E (Across S S') Eq ((a.method o n).advance.run y)
      ((a.method o n).advance.run y') := by
  cases a with
  | newton search l => exact Newton.advance_upTo_unswallowed hl hS hi hE
  | trustRegion scheme prm l => exact TrustRegion.upTo_advance scheme prm l o hS _ _ hi
  | klement limit => exact Klement.upTo_advance hS limit o _ _ hi
  | broyden limit => exact Broyden.upTo_advance hS limit o _ _ hi
  | replay script => exact ha.elim

theorem Swallows.wp_advance {e : Fault α} (h : a.Swallows o y e) :
    (a.method o n).advance.wp (fun _ => y.GivesUp e.mistakenFor) (fun _ _ => False) y := by
  cases a with
  | newton search l => exact Newton.Swallows.wp_advance h
  | _ => exact h.elim

end Algorithm

namespace Session

variable {s z : Session α n} {e : Fault α}

/-- The functions of the system raise a fault during a call: it makes a difference to the call what
they do where they raise it. -/
def Meets (call : Act α (Session α n) β) (onto : β → System α n → β) (s : Session α n)
    (e : Fault α) : Prop :=
  ∃ S', s.problem.system.AgreesUpTo (· = e) S' ∧
    call.run (s.onto S') ≠ (call.run s).image (·.onto S') (onto · S')

/-- A fault is raised during a step. -/
def MeetsInStep (s : Session α n) (e : Fault α) : Prop := Meets step (fun _ _ => ()) s e

/-- A fault is raised during a solve. -/
def MeetsInSolve (s : Session α n) (e : Fault α) : Prop := Meets solve Run.onto s e

/-- The step that comes next takes a fault for its own. -/
def Swallows (s : Session α n) (e : Fault α) : Prop :=
  s.algorithm.Swallows s.options s.iteration e

/-- What a method does alike on another system, its sessions do. -/
theorem on_onto (x : (σ : Type) → Method α n σ → Act α (Iteration α n σ) β) {g : β → β}
    (h : (x _ s.method).run (s.iteration.onto S') =
      ((x _ s.method).run s.iteration).image (·.onto S') g) :
    (on fun s => x _ s.method).run (s.onto S') =
      ((on fun s => x _ s.method).run s).image (·.onto S') g := by
  change (⟨((x _ s.method).run (s.iteration.onto S')).result,
    ⟨s.algorithm, s.options, ((x _ s.method).run (s.iteration.onto S')).state⟩,
    ((x _ s.method).run (s.iteration.onto S')).trace⟩ : Outcome α (Session α n) β) = _
  rw [h]
  rfl

section Unswallowed

variable (ha : s.algorithm.BuiltIn) (hl : s.algorithm.LetsThrough)

include ha hl

/-- A step goes alike on both systems up to the faults that it does not take for its own. -/
theorem step_upTo (hS : S.AgreesUpTo E S') (it it' : Iteration α n (s.algorithm.Memory n))
    (hi : Iteration.Across S S' it it')
    (hE : (it.tested s.method).terminated = false →
      ∀ e, E e → ¬ s.algorithm.Swallows s.options it e) :
    PairedUpTo E (Iteration.Across S S') Eq ((Iteration.step s.method).run it)
      ((Iteration.step s.method).run it') :=
  Iteration.step_upTo ⟨rfl, rfl, rfl⟩ hi fun ho => Algorithm.advance_upTo ha hl hS hi (hE ho)

/-- A step raises a fault that the functions of its system raise, unless it takes it for its own. -/
theorem step_raises (h : s.MeetsInStep e)
    (hs : (s.iteration.tested s.method).terminated = false → ¬ s.Swallows e) :
    (step.run s).result = .error e := by
  obtain ⟨S', hS, hne⟩ := h
  cases step_upTo ha hl hS s.iteration (s.iteration.onto S') ⟨rfl, rfl⟩
    (fun ho e' he' => he' ▸ hs ho) with
  | raised he h =>
    rw [← he]
    exact h
  | paired h =>
    refine (hne (on_onto (fun _ m => Iteration.step m) ?_)).elim
    exact h.image (fun _ _ h => h.onto) fun _ _ _ => rfl

/-- So does a run, unless a step on its way takes the fault for its own. -/
theorem solve_raises (h : s.MeetsInSolve e) (hs : ∀ z, s.Passes z → ¬ z.Swallows e) :
    s.outcome = .error e := by
  obtain ⟨S', hS, hne⟩ := h
  have hi : Iteration.Across s.problem.system S' s.iteration (s.iteration.onto S') := ⟨rfl, rfl⟩
  have hsolve := Iteration.solve_upTo (E := (· = e)) (m := s.method) ⟨rfl, rfl, rfl⟩ hi
    fun z z' hcourse hz => step_upTo ha hl hS z z' hz fun ho e' he' =>
      he' ▸ hs ⟨s.algorithm, s.options, z⟩ ⟨⟨z, hcourse, rfl⟩, ho⟩
  cases hsolve with
  | raised he h =>
    rw [← he]
    exact h
  | paired h =>
    refine (hne (on_onto (fun _ m => Iteration.solve m) ?_)).elim
    exact h.image (fun _ _ h => h.onto) fun _ _ h => h.2

end Unswallowed

/-- A lap that takes a fault for its own ends the run. -/
theorem Swallows.returns_lap (h : s.Swallows e) :
    ∃ x, (lap s.method).Returns s.iteration () x ∧ s.iteration.GivesUp e.mistakenFor x := by
  obtain ⟨_, x, hx, hgives⟩ := (Algorithm.Swallows.wp_advance h).returns
  have hx : s.method.advance.Returns s.iteration () x := hx
  refine ⟨{ x with stats := x.stats.countStep }, ?_,
    ⟨hgives.code, hgives.stopped, hgives.u, hgives.fu⟩⟩
  apply Act.returns_of_wp
  rw [wp_lap_advance, hx.wp_iff]
  exact ⟨rfl, rfl⟩

theorem Swallows.step_returns (h : s.Swallows e)
    (ho : (s.iteration.tested s.method).terminated = false) :
    (step.run s).result = .ok () ∧
      s.iteration.GivesUp e.mistakenFor (step.run s).state.iteration := by
  obtain ⟨x, hx, hgives⟩ := h.returns_lap
  have hstep := returns_step_lap ho hx
  rw [tested_of_terminated hgives.terminated] at hstep
  have hstate : (step.run s).state.iteration = x := hstep.2
  rw [hstate]
  exact ⟨hstep.1, hgives⟩

theorem Swallows.outcome_of_passes (h : z.Swallows e) (hz : s.Passes z) :
    ∃ r, s.outcome = .ok r ∧ r.code = e.mistakenFor ∧ r.u = z.iteration.u ∧
      r.resid = z.iteration.fu := by
  obtain ⟨k, y, hy, ho, rfl⟩ := passes_iff.mp hz
  obtain ⟨x, hx, hgives⟩ := h.returns_lap
  have hlaps : Laps s.method (k + 1) s.iteration x := hy.append (.more ho hx (.none x))
  have htested : x.tested s.method = x := tested_of_terminated hgives.terminated
  have hsolve := hlaps.returns_solve s.method_advance_at
    (by rw [htested]; exact hgives.terminated)
  rw [htested] at hsolve
  exact ⟨_, hsolve.1, hgives.code, hgives.u, hgives.fu⟩

end Session

theorem Candidate.letsThrough_algorithm [LinearRoutines Float] {c : Candidate}
    (hp : ∀ p ∈ c.configuration.preconditioning, p.run.LetsThrough) :
    c.algorithm.LetsThrough := by
  cases c with
  | newton search configuration =>
    intro f hf
    obtain ⟨p, hp', rfl⟩ := Option.map_eq_some_iff.mp hf
    exact hp p hp'
  | _ => trivial

/-- What the functions of a system raise during a call of a session, at whatever point, the call
raises. Excepted are faults that a step takes for its own: the run is then over under a return code,
where it stood. -/
theorem sessions_raise_what_functions_do [LinearRoutines Float] {n : Nat} {c : Candidate}
    (hc : c.BuiltIn)
    (hp : ∀ p ∈ c.configuration.preconditioning, p.run.LetsThrough) {s : Session Float n}
    (hs : s.algorithm = c.algorithm) :
    (∀ e, s.MeetsInStep e → ¬ s.Swallows e → (Session.step.run s).result = .error e) ∧
    (∀ e, s.MeetsInSolve e → (∀ z, s.Passes z → ¬ z.Swallows e) → s.outcome = .error e) ∧
    (∀ e, s.Swallows e → (s.iteration.tested s.method).terminated = false →
      (Session.step.run s).result = .ok () ∧
        s.iteration.GivesUp e.mistakenFor (Session.step.run s).state.iteration) ∧
    (∀ z e, s.Passes z → z.Swallows e → ∃ r, s.outcome = .ok r ∧ r.code = e.mistakenFor ∧
      r.u = z.iteration.u ∧ r.resid = z.iteration.fu) ∧
    ∀ e, s.Swallows e → ∃ search configuration, c = .newton search configuration ∧
      (e.kind = .linearAlgebra ∧ configuration.linearization.concrete = false ∧
          s.problem.system.hasJacobian = false ∨
        e.kind = .convergence ∧ search.isSome = true) := by
  have ha : s.algorithm.BuiltIn := hs ▸ hc
  have hl : s.algorithm.LetsThrough := hs ▸ c.letsThrough_algorithm hp
  refine ⟨fun e hm hn => s.step_raises ha hl hm fun _ => hn,
    fun e hm hn => s.solve_raises ha hl hm hn, fun e h ho => h.step_returns ho,
    fun z e hz h => h.outcome_of_passes hz, fun e h => ?_⟩
  obtain ⟨a, o, it⟩ := s
  obtain rfl : a = c.algorithm := hs
  cases c with
  | newton search configuration =>
    refine ⟨search, configuration, rfl, ?_⟩
    cases h with
    | solve matrixFree differences kind _ => exact .inl ⟨kind, matrixFree, differences⟩
    | search h =>
      obtain ⟨prm, _, _, _, _, hprm, _⟩ := h.raised
      refine .inr ⟨h.kind, ?_⟩
      rw [← Option.isSome_map, hprm]
      rfl
  | _ => exact h.elim

/-- A residual that its function has up to one only; above, it raises. -/
def ledge (start : Float) (k : Kind) : Problem Float 1 :=
  ⟨.outOfPlace (fun u _ => if u.toList.all (· ≤ 1.0) then .ok (u.map fun x => x * x - 2.0)
    else .error (.raised k "")) none, .replicate 1 start, .absent⟩

def slope : System Float 1 := .outOfPlace (fun u _ => .ok (u.map fun x => x * x - 2.0)) none

theorem agreesUpTo_slope (start : Float) (k : Kind) :
    (ledge start k).system.AgreesUpTo (· = .raised k "") slope where
  residualInto _ u out _ := by
    simp only [ledge, slope, Problem.residualInto]
    split
    · exact .inl rfl
    · exact .inr ⟨_, rfl, rfl⟩
  jacobian _ _ _ := .inl rfl
  hasJacobian := rfl

namespace Session

def seen (o : Outcome Float (Session Float 1) β) : Bool × ReturnCode :=
  (o.result.isOk, o.state.iteration.code)

theorem meets_of_seen {call : Act Float (Session Float 1) β} {onto : β → System Float 1 → β}
    {s : Session Float 1} {start : Float} {k : Kind} (hs : s.problem = ledge start k)
    (h : seen (call.run s) ≠ seen (call.run (s.onto slope))) :
    Meets call onto s (.raised k "") := by
  refine ⟨slope, hs ▸ agreesUpTo_slope start k, fun heq => h ?_⟩
  rw [heq, seen, seen, Outcome.image]
  cases (call.run s).result <;> rfl

def sights (s : Session Float 1) : List (Bool × ReturnCode) :=
  [seen (step.run s), seen (step.run (s.onto slope)), seen (solve.run s),
    seen (solve.run (s.onto slope))]

variable [LinearRoutines Float]

/-- A session at the ledge that gets over it in a step, and to a solution, only without the
ledge. -/
theorem meets_of_sights {c : Candidate} {s : Session Float 1} {start : Float} {k : Kind}
    {o : Bool × ReturnCode} (hs : Candidate.Started .plain (ledge start k) c s)
    (h : s.sights = [o, (true, .default), o, (true, .success)]) (hd : o ≠ (true, .default))
    (hc : o ≠ (true, .success)) :
    s.MeetsInStep (.raised k "") ∧ s.MeetsInSolve (.raised k "") ∧ seen (solve.run s) = o := by
  simp only [sights, List.cons.injEq, and_true] at h
  obtain ⟨hstep, hstep', hsolve, hsolve'⟩ := h
  refine ⟨meets_of_seen hs.problem ?_, meets_of_seen hs.problem ?_, hsolve⟩
  · rwa [hstep, hstep']
  · rwa [hsolve, hsolve']

/-- A session whose calls return at the ledge, with a code in place of the fault. -/
theorem loses_of_sights {c : Candidate} {start : Float} {k : Kind} {code : ReturnCode}
    (h : (((c.init .plain (ledge start k)).run ()).result.map sights).toOption =
      some [(true, code), (true, .default), (true, code), (true, .success)])
    (hd : code ≠ .default) (hc : code ≠ .success) :
    ∃ s : Session Float 1, ((c.init .plain (ledge start k)).run ()).result = .ok s ∧
      s.MeetsInStep (.raised k "") ∧ s.MeetsInSolve (.raised k "") ∧
        ∃ r, s.outcome = .ok r ∧ r.code = code := by
  obtain ⟨s, hs, hsights⟩ := except_shown h
  obtain ⟨hstep, hsolve, hseen⟩ := meets_of_sights (Candidate.started hs) hsights
    (by simp [hd]) (by simp [hc])
  obtain ⟨hok, hcode⟩ := Prod.mk.inj hseen
  exact ⟨s, hs, hstep, hsolve, _, outcome_of_isOk hok, hcode⟩

end Session

/-- At the ledge, the first difference of Newton's method raises, and both calls do. -/
theorem sessions_raise_what_functions_do_ledge : ∃ s : Session Float 1,
    (((Candidate.newton none .initial).init .plain (ledge 1.0 .linearAlgebra)).run ()).result =
      .ok s ∧
    s.MeetsInStep (.raised .linearAlgebra "") ∧ s.MeetsInSolve (.raised .linearAlgebra "") ∧
    (Session.step.run s).result = .error (.raised .linearAlgebra "") ∧
    s.outcome = .error (.raised .linearAlgebra "") := by
  obtain ⟨s, hs, hsights⟩ := except_shown (f := Session.sights)
    (x := (((Candidate.newton none .initial).init .plain (ledge 1.0 .linearAlgebra)).run ()).result)
    (c := [(false, .default), (true, .default), (false, .default), (true, .success)])
    (by decide +kernel)
  have hstarted := Candidate.started hs
  obtain ⟨hstep, hsolve, -⟩ := Session.meets_of_sights hstarted hsights (by decide) (by decide)
  have hcalls : ∀ z : Session Float 1, z.algorithm = s.algorithm → _ := fun z hz =>
    sessions_raise_what_functions_do (c := .newton none .initial) trivial nofun
      (hz.trans hstarted.algorithm)
  have hno : ∀ z : Session Float 1, z.algorithm = s.algorithm →
      ¬ z.Swallows (.raised .linearAlgebra "") := by
    intro z hz h
    obtain ⟨search, configuration, hc, ⟨-, hmatrix, -⟩ | ⟨hkind, -⟩⟩ :=
      (hcalls z hz).2.2.2.2 _ h
    · obtain ⟨-, rfl⟩ := Candidate.newton.inj hc
      cases hmatrix
    · cases hkind
  exact ⟨s, hs, hstep, hsolve, (hcalls s rfl).1 _ hstep (hno s rfl),
    (hcalls s rfl).2.1 _ hsolve fun z hz => hno z hz.algorithm⟩

/-- Newton's method turns two faults of a function into return codes: one of the class that its line
search raises, at a trial point, and one of linear algebra, in a product of its linear solve. -/
theorem faults_of_functions_become_codes :
    (∃ s : Session Float 1,
      (((Candidate.newton (some Settings.initial) .initial).init .plain
        (ledge 0.1 .convergence)).run ()).result = .ok s ∧
      s.MeetsInStep (.raised .convergence "") ∧ s.MeetsInSolve (.raised .convergence "") ∧
      ∃ r, s.outcome = .ok r ∧ r.code = .stalled) ∧
    ∃ s : Session Float 1,
      (((Candidate.newton none krylovian).init .plain (ledge 1.0 .linearAlgebra)).run ()).result =
        .ok s ∧
      s.MeetsInStep (.raised .linearAlgebra "") ∧ s.MeetsInSolve (.raised .linearAlgebra "") ∧
      ∃ r, s.outcome = .ok r ∧ r.code = .failure := by
  constructor
  · exact Session.loses_of_sights (by decide +kernel) (by decide) (by decide)
  · exact Session.loses_of_sights (by decide +kernel) (by decide) (by decide)

end Rootfinder
