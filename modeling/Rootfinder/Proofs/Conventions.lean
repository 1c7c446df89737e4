import Rootfinder.Proofs.GreaterTolerance
import Rootfinder.Proofs.LockstepUpTo

namespace Rootfinder

open Act Iteration

variable {α σ : Type} [Scalar α] {n : Nat} {S S' : System α n}

/-- Newton's method steps alike under linearizations whose linear solves are the same. -/
theorem Newton.lockstep_advance (search : Option (LineSearch.Params α)) {l l' : Linearization α}
    (o : Options α) (hS : S.Agrees S')
    (hbuild : ∀ (P : Problem α n) (u fu : Vec α n), P.system = S →
      Lockstep Eq (fun J J' => l.solver.solve (n := n) J = l'.solver.solve J')
        (Jacobian.build l.concrete P l.differencing u fu)
        (Jacobian.build l'.concrete (P.onto S') l'.differencing u fu)) :
    Lockstep (Across S S') Eq (advance search l o) (advance search l' o) := by
  refine LockstepUpTo.lockstep fun it it' hi => ?_
  refine advance_upTo search o hS.upTo (F := fun _ => False) (fun _ he => he) hi
    (Lockstep.upTo ?_) (fun _ he => he.elim) fun _ he => he.elim
  refine (hbuild _ it.u it.fu hi.system).imp fun J J' hJ b u p => ?_
  rw [hJ]
  exact lockstep_rfl.upTo

namespace Algorithm

/-- The methods that use derivatives. -/
def Linearizes : Algorithm α → Prop
  | .newton _ _ | .trustRegion _ _ _ => True
  | _ => False

theorem lockstep_advance (hS : S.Agrees S') {a : Algorithm α} (ha : a.Linearizes) (o : Options α) :
    Lockstep (Across S S') Eq (a.method o n).advance (a.method o n).advance := by
  cases a with
  | newton search l =>
    refine Newton.lockstep_advance search o hS fun P u fu hP => ?_
    exact (Jacobian.upTo_build hS.upTo hP _ _ _ _).lockstep.imp fun J J' hJ => by rw [hJ.eq]
  | trustRegion scheme prm l => exact (TrustRegion.upTo_advance scheme prm l o hS.upTo).lockstep
  | klement limit => exact ha.elim
  | broyden limit => exact ha.elim
  | replay script => exact ha.elim

end Algorithm

/-- The same result on another system. -/
def Solution.onto (sol : Solution α n) (S : System α n) : Solution α n :=
  { sol with problem := sol.problem.map (·.onto S), original := sol.original.map (·.onto S) }

namespace Session

/-- The same session on another system. -/
def onto (s : Session α n) (S : System α n) : Session α n :=
  { s with iteration := s.iteration.onto S }

/-- A session of a method that uses derivatives on one system, and the same session on another. -/
structure Across (S S' : System α n) (s s' : Session α n) : Prop where
  linearizes : s.algorithm.Linearizes
  system : s.problem.system = S
  onto : s' = s.onto S'

/-- What all methods do in lockstep, their sessions do. -/
theorem lockstep_on {β : Type} {Q : β → β → Prop}
    (x : (σ : Type) → Method α n σ → Act α (Iteration α n σ) β)
    (h : ∀ (a : Algorithm α) (o : Options α), a.Linearizes →
      Lockstep (Iteration.Across S S') Q (x _ (a.method o n)) (x _ (a.method o n))) :
    Lockstep (Across S S') Q (on fun s => x _ s.method) (on fun s => x _ s.method) := by
  rintro ⟨a, o, it⟩ _ ⟨ha, hs, rfl⟩
  obtain ⟨hr, ⟨hs', ho⟩, ht⟩ := h a o ha it (it.onto S') ⟨hs, rfl⟩
  exact ⟨hr, ⟨ha, hs', congrArg (Session.mk a o) ho⟩, ht⟩

variable (hS : S.Agrees S')

include hS

theorem lockstep_step : Lockstep (Across S S') Eq step step :=
  lockstep_on (fun _ m => Iteration.step m) fun _ o ha =>
    Iteration.lockstep_step ⟨rfl, rfl, rfl⟩ (Algorithm.lockstep_advance hS ha o)

theorem lockstep_solve :
    Lockstep (Across S S') (fun r r' => r' = r.onto S') solve solve :=
  lockstep_on (fun _ m => Iteration.solve m) fun _ o ha =>
    (Iteration.lockstep_solve ⟨rfl, rfl, rfl⟩ (Algorithm.lockstep_advance hS ha o)).imp
      fun _ _ h => h.2

theorem lockstep_reinit (start : Option (List α)) (parameter : Option (Parameter α)) :
    Lockstep (Across S S') Eq (reinit start parameter) (reinit start parameter) :=
  lockstep_on (fun _ m => Iteration.reinit m start parameter) fun _ _ _ =>
    Iteration.lockstep_reinit hS ⟨rfl, rfl, rfl⟩ start parameter

theorem lockstep_start {a : Algorithm α} (ha : a.Linearizes) (o : Options α) {P : Problem α n}
    (hP : P.system = S) :
    Lockstep Eq (Across S S') (Session.start a o P) (Session.start a o (P.onto S')) := by
  unfold Session.start
  refine (Iteration.lockstep_start hS ⟨rfl, rfl, rfl⟩ hP).bind ?_
  rintro it _ ⟨hs, rfl⟩
  exact lockstep_pure ⟨ha, hs, rfl⟩

end Session

/-- Sessions on systems that evaluate the same are served alike. -/
theorem Session.lockstep_serve_onto {n : Nat} {S S' : System Float n} (hS : S.Agrees S')
    (request : Request) :
    Lockstep (Across S S') (fun a a' => a' = a.map (·.onto S')) (serve request)
      (serve request) := by
  refine lockstep_serve (A := fun a a' => a' = a.map (·.onto S')) (lockstep_step hS)
    (lockstep_solve hS) (lockstep_reinit hS) rfl ?_ request
  rintro r _ rfl
  rfl

namespace Warm

def onto (w : Warm α n) (S : System α n) : Warm α n :=
  { w with sessions := w.sessions.map (·.onto S) }

structure Across (S S' : System α n) (w w' : Warm α n) : Prop where
  sessions : ∀ s ∈ w.sessions, Session.Across S S' s (s.onto S')
  onto : w' = w.onto S'

theorem lockstep_on {β : Type} {Q : β → β → Prop} {x : Act α (Session α n) β}
    (h : Lockstep (Session.Across S S') Q x x) (i : Nat) :
    Lockstep (Across S S') Q (on i x) (on i x) := by
  rintro w _ ⟨hw, rfl⟩
  cases hi : w.sessions[i]? with
  | none =>
    have hi' : (w.onto S').sessions[i]? = none := by simp [onto, hi]
    have hlen : (w.onto S').sessions.length = w.sessions.length := by simp [onto]
    unfold on Act.run
    simp only [hi, hi', hlen]
    exact ⟨.error _, ⟨hw, rfl⟩, rfl⟩
  | some s =>
    have hi' : (w.onto S').sessions[i]? = some (s.onto S') := by simp [onto, hi]
    obtain ⟨hr, hs, ht⟩ := h s (s.onto S') (hw s (List.mem_of_getElem? hi))
    unfold on Act.run
    simp only [hi, hi']
    have hst : (x (s.onto S')).state = (x s).state.onto S' := hs.onto
    refine ⟨hr, ⟨fun t ht => ?_, ?_⟩, ht⟩
    · rcases List.mem_or_eq_of_mem_set ht with hm | rfl
      · exact hw t hm
      · exact hst ▸ hs
    · simp only [onto, List.map_set, hst]

theorem lockstep_report {R : Warm α n → Warm α n → Prop} (total failures : Nat)
    (a : AttemptRecord α) :
    Lockstep R Eq (a.report total failures : Act α (Warm α n) Unit) (a.report total failures) := by
  unfold AttemptRecord.report
  refine Lockstep.ite (Lockstep.ite (lockstep_log _) (lockstep_pure rfl)) ?_
  exact Lockstep.ite (lockstep_log _) (lockstep_log _)

def drivenOnto (S : System α n) (d : Option (Nat × Run α n) × List (AttemptRecord α)) :
    Option (Nat × Run α n) × List (AttemptRecord α) :=
  (d.1.map fun f => (f.1, f.2.onto S), d.2)

theorem onto_length (w : Warm α n) (S : System α n) :
    (w.onto S).sessions.length = w.sessions.length := List.length_map _

theorem onto_problem? (w : Warm α n) (S : System α n) :
    (w.onto S).problem? = w.problem?.map (·.onto S) := by
  simp only [problem?, onto, List.head?_map, Option.map_map]
  rfl

theorem onto_norm (w : Warm α n) (S : System α n) : (w.onto S).norm = w.norm := by
  simp only [norm, onto, List.head?_map, Option.map_map]
  rfl

theorem lockstep_conclude (w : Warm α n)
    (driven : Option (Nat × Run α n) × List (AttemptRecord α)) :
    Lockstep (Across S S') (fun sol sol' => sol' = sol.onto S') (w.conclude driven)
      ((w.onto S').conclude (drivenOnto S' driven)) := by
  obtain ⟨- | ⟨i, run⟩, records⟩ := driven
  · refine lockstep_read.bind ?_
    rintro after _ ⟨-, rfl⟩
    rw [onto_norm, onto_problem?, onto_length]
    have hbest : Selection.selectBest (fun s : Session α n => s.residualNorm (some w.norm))
        (after.onto S').sessions = (Selection.selectBest
          (fun s : Session α n => s.residualNorm (some w.norm)) after.sessions).map
            fun b => (b.1, b.2.onto S') :=
      Selection.selectBest_map _ (·.onto S') after.sessions
    rw [hbest]
    refine (lockstep_ofExcept (matching_map _ _)).bind ?_
    rintro ⟨i, s⟩ _ rfl
    exact (lockstep_log _).seq fun _ => lockstep_pure rfl
  · refine lockstep_read.bind ?_
    rintro after _ ⟨-, rfl⟩
    rw [onto_problem?]
    exact lockstep_pure rfl

variable (hS : S.Agrees S')

include hS

theorem lockstep_performStep :
    Lockstep (Across S S') (fun r r' => r' = r.onto S') performStep performStep := by
  refine lockstep_read.bind ?_
  rintro w _ ⟨-, rfl⟩
  exact lockstep_on (Session.lockstep_solve hS) w.current

theorem lockstep_drive (norm : Norm α) (left : Nat) (records : List (AttemptRecord α)) :
    Lockstep (Across S S') (fun d d' => d' = drivenOnto S' d) (drive norm left records)
      (drive norm left records) := by
  induction left generalizing records with
  | zero => exact lockstep_pure rfl
  | succ left ih =>
    unfold drive
    refine lockstep_read.bind ?_
    rintro w _ ⟨-, rfl⟩
    refine (lockstep_performStep hS).bind ?_
    rintro run _ rfl
    rw [onto_length]
    refine Lockstep.seq (lockstep_report _ _ _) fun _ => Lockstep.ite (lockstep_pure rfl) ?_
    refine Lockstep.seq (lockstep_update fun w _ h => ?_) fun _ => ih _
    obtain ⟨hw, rfl⟩ := h
    exact ⟨hw, rfl⟩

theorem lockstep_solve :
    Lockstep (Across S S') (fun sol sol' => sol' = sol.onto S') solve solve := by
  unfold solve
  refine lockstep_read.bind ?_
  rintro w _ ⟨-, rfl⟩
  have hrest : Lockstep (Across S S') (fun sol sol' => sol' = sol.onto S')
      (drive w.norm (w.sessions.length - w.current) [] >>= w.conclude)
      (drive w.norm (w.sessions.length - w.current) [] >>= (w.onto S').conclude) := by
    refine (lockstep_drive hS _ _ _).bind ?_
    rintro driven _ rfl
    exact lockstep_conclude w driven
  rw [onto_length, onto_norm]
  exact Lockstep.ite ((lockstep_log _).seq fun _ => hrest) hrest

end Warm

/-- Systems that are made from a residual and perhaps a Jacobian: those that return values return
theirs; those in place store theirs over what was there, and nothing where they raise. -/
def System.Presents (F : Vec α n → Parameter α → Except (Fault α) (Vec α n))
    (D : Option (Vec α n → Parameter α → Except (Fault α) (Mat α n n))) : System α n → Prop
  | .outOfPlace f jacobian => (∀ u p, f u p = F u p) ∧
      Option.Rel (fun jac D => ∀ u p, jac u p = D u p) jacobian D
  | .inPlace f jacobian => (∀ u p out, (f u p).fill out = .ofExcept out (F u p)) ∧
      Option.Rel (fun jac D => ∀ u p out, (jac u p).fillMat out = .ofExcept out (D u p)) jacobian D

omit [Scalar α] in
theorem Filled.toExcept_ofExcept {β : Type} (out : β) (r : Except (Fault α) β) :
    (Filled.ofExcept out r).toExcept = r := by
  cases r <;> rfl

namespace System.Presents

variable {F : Vec α n → Parameter α → Except (Fault α) (Vec α n)}
  {D : Option (Vec α n → Parameter α → Except (Fault α) (Mat α n n))}

omit [Scalar α] in
theorem residualInto_eq (h : S.Presents F D) (start u out : Vec α n) (p : Parameter α) :
    Problem.residualInto ⟨S, start, p⟩ u out = .ofExcept out (F u p) := by
  cases S with
  | outOfPlace f jacobian => exact congrArg (Filled.ofExcept out) (h.1 u p)
  | inPlace f jacobian => exact h.1 u p out

theorem jacobian_eq (h : S.Presents F D) (start u : Vec α n) (p : Parameter α) :
    Problem.jacobian ⟨S, start, p⟩ u =
      (D.map fun D => D u p).getD (.error (.refused .noJacobian)) := by
  cases S with
  | outOfPlace f jacobian =>
    obtain ⟨-, hD⟩ := h
    cases hD with
    | none => rfl
    | some hD => exact hD u p
  | inPlace f jacobian =>
    obtain ⟨-, hD⟩ := h
    cases hD with
    | none => rfl
    | some hD =>
      simp only [Problem.jacobian, hD, Filled.toExcept_ofExcept]
      rfl

omit [Scalar α] in
theorem hasJacobian_eq (h : S.Presents F D) : S.hasJacobian = D.isSome := by
  cases S with
  | outOfPlace f jacobian =>
    obtain ⟨-, hD⟩ := h
    cases hD <;> rfl
  | inPlace f jacobian =>
    obtain ⟨-, hD⟩ := h
    cases hD <;> rfl

/-- Systems made from the same functions evaluate the same. -/
theorem agrees (h : S.Presents F D) (h' : S'.Presents F D) : S.Agrees S' where
  residualInto start u out p := by rw [h.residualInto_eq, h'.residualInto_eq]
  jacobian start u p := by rw [h.jacobian_eq, h'.jacobian_eq]
  hasJacobian := by rw [h.hasJacobian_eq, h'.hasJacobian_eq]

end System.Presents

section Candidates

variable {n : Nat} {S S' : System Float n} (hS : S.Agrees S') {P : Problem Float n}
  (hP : P.system = S) (call : Call)

include hS hP

namespace Candidate

theorem lockstep_init [LinearRoutines Float] {c : Candidate} (hc : c.algorithm.Linearizes) :
    Lockstep Eq (Session.Across S S') (c.init call P) (c.init call (P.onto S')) := by
  have hsupports : ∀ inPlace, c.supports inPlace = true := by
    intro inPlace
    cases c with
    | newton search configuration => rfl
    | trustRegion scheme rule configuration => rfl
    | klement limit configuration => exact hc.elim
    | broyden limit configuration => exact hc.elim
    | replay script configuration => exact hc.elim
  unfold init
  simp only [hsupports]
  split
  · exact lockstep_raise _
  · refine Lockstep.ite (lockstep_raise _) ?_
    simp only [Bool.not_true, Bool.false_eq_true, if_false]
    exact (lockstep_ofExcept (matching_refl _)).seq fun o => Session.lockstep_start hS hc o hP

end Candidate

variable [LinearRoutines Float]

theorem Warm.lockstep_ofCandidates (owner : Solver) {cs : List Candidate}
    (hcs : ∀ c ∈ cs, c.algorithm.Linearizes) :
    Lockstep Eq (Warm.Across S S') (Warm.ofCandidates owner cs call P)
      (Warm.ofCandidates owner cs call (P.onto S')) := by
  have hsessions : Lockstep Eq
      (fun ss ss' => (∀ s ∈ ss, Session.Across S S' s (s.onto S')) ∧ ss' = ss.map (·.onto S'))
      (cs.mapM fun c : Candidate => c.init call P)
      (cs.mapM fun c : Candidate => c.init call (P.onto S')) := by
    induction cs with
    | nil => exact lockstep_pure ⟨by simp, rfl⟩
    | cons c cs ih =>
      obtain ⟨hc, hcs⟩ := List.forall_mem_cons.mp hcs
      rw [List.mapM_cons, List.mapM_cons]
      refine (Candidate.lockstep_init hS hP call hc).bind ?_
      rintro s _ hs
      obtain rfl := hs.onto
      refine (ih hcs).bind ?_
      rintro ss _ ⟨hss, rfl⟩
      exact lockstep_pure ⟨List.forall_mem_cons.mpr ⟨hs, hss⟩, rfl⟩
  unfold ofCandidates
  refine hsessions.bind ?_
  rintro ss _ ⟨hss, rfl⟩
  refine lockstep_ofExcept ?_
  unfold ofSessions
  rw [List.isEmpty_map]
  split
  · exact .error _
  · exact .ok ⟨hss, rfl⟩

/-- Kept candidates of a polyalgorithm solve alike. -/
theorem Polyalgorithm.lockstep_solveWarm (p : Polyalgorithm) :
    Lockstep Eq (fun sol sol' => sol' = sol.onto S') (p.solveWarm call P)
      (p.solveWarm call (P.onto S')) := by
  have hcs : ∀ inPlace, p.candidates inPlace true = p.candidates true true := fun _ => by
    obtain ⟨preset, configuration⟩ := p
    cases preset <;> rfl
  have hlinear : ∀ c ∈ p.candidates true true, c.algorithm.Linearizes := by
    intro c hc
    obtain ⟨preset, configuration⟩ := p
    cases c with
    | newton search configuration => trivial
    | trustRegion scheme rule configuration => trivial
    | _ =>
      cases preset <;>
        simp [candidates, Preset.candidates, Preset.robustCandidates, Preset.fastCandidates,
          Preset.newton, Preset.damped, Candidate.customary] at hc
  unfold solveWarm init
  rw [hcs, hcs]
  refine (Warm.lockstep_ofCandidates hS hP call p.solver hlinear).bind fun w w' hw => ?_
  exact Lockstep.within (Warm.lockstep_solve hS) hw

end Candidates

/-- A system that returns its values and one in place that are made from the same residual and
Jacobian are solved alike. A candidate that uses derivatives is set to work on both or on neither,
and all that is then asked of the two sessions has the same outcomes but for the system: the same
states, answers and reports. So have the solves of all kept candidates of a preset, which the robust
preset solves by. -/
theorem conventions_agree [LinearRoutines Float] {n : Nat}
    {F : Vec Float n → Parameter Float → Except (Fault Float) (Vec Float n)}
    {D : Option (Vec Float n → Parameter Float → Except (Fault Float) (Mat Float n n))}
    {S S' : System Float n} (hS : S.Presents F D) (hS' : S'.Presents F D) (start : Vec Float n)
    (parameter : Parameter Float) (call : Call) :
    (∀ c : Candidate, c.algorithm.Linearizes →
      (c.init call ⟨S', start, parameter⟩).run () =
        ((c.init call ⟨S, start, parameter⟩).run ()).image id (·.onto S') ∧
      ∀ s, ((c.init call ⟨S, start, parameter⟩).run ()).result = .ok s →
        ∀ requests, Act.transcript Session.serve (s.onto S') requests =
          (Act.transcript Session.serve s requests).map
            (Outcome.image (·.onto S') (Option.map (·.onto S')))) ∧
    ∀ configuration : Configuration,
      (∀ preset : Preset,
        ((⟨preset, configuration⟩ : Polyalgorithm).solveWarm call ⟨S', start, parameter⟩).run () =
          (((⟨preset, configuration⟩ : Polyalgorithm).solveWarm call
            ⟨S, start, parameter⟩).run ()).image id (·.onto S')) ∧
      ((⟨.robust, configuration⟩ : Polyalgorithm).solve call ⟨S', start, parameter⟩).run () =
        (((⟨.robust, configuration⟩ : Polyalgorithm).solve call
          ⟨S, start, parameter⟩).run ()).image id (·.onto S') := by
  have hagree := hS.agrees hS'
  have hwarm : ∀ p : Polyalgorithm, (p.solveWarm call ⟨S', start, parameter⟩).run () =
      ((p.solveWarm call ⟨S, start, parameter⟩).run ()).image id (·.onto S') := fun p =>
    (p.lockstep_solveWarm hagree (P := ⟨S, start, parameter⟩) rfl call () () rfl).image
      (fun _ _ _ => rfl) fun _ _ h => h
  refine ⟨fun c hc => ⟨?_, fun s hs requests => ?_⟩,
    fun configuration => ⟨fun preset => hwarm _, hwarm _⟩⟩
  · exact (Candidate.lockstep_init hagree (P := ⟨S, start, parameter⟩) rfl call hc () () rfl).image
      (fun _ _ _ => rfl) fun _ _ h => h.onto
  · obtain ⟨-, halgorithm, -, hproblem⟩ := Candidate.started hs
    have hacross : Session.Across S S' s (s.onto S') :=
      ⟨halgorithm ▸ hc, by rw [hproblem], rfl⟩
    exact Act.transcript_image (fun _ _ h => h.onto) (fun _ _ h => h)
      (Session.lockstep_serve_onto hagree) hacross requests

/-- The system of the parabola in place. -/
def parabolaStored : System Float 1 :=
  .inPlace (fun u _ => ⟨[(Fin.last 0, u.get (Fin.last 0) * u.get (Fin.last 0) - 2.0)], none⟩)
    (some fun u _ => ⟨[((Fin.last 0, Fin.last 0), 2.0 * u.get (Fin.last 0))], none⟩)

theorem conventions_agree_parabola :
    (parabola.system.isInPlace, parabolaStored.isInPlace) = (false, true) ∧
    ∃ s sol, (((Candidate.newton none Settings.initial).init .plain parabola).run ()).result =
        .ok s ∧
      (∀ requests, Act.transcript Session.serve (s.onto parabolaStored) requests =
        (Act.transcript Session.serve s requests).map
          (Outcome.image (·.onto parabolaStored) (Option.map (·.onto parabolaStored)))) ∧
      (((⟨.robust, Settings.initial⟩ : Polyalgorithm).solve .plain parabola).run ()).result =
        .ok sol ∧ (sol.code, sol.candidate) = (.success, some 0) ∧
      (((⟨.robust, Settings.initial⟩ : Polyalgorithm).solve .plain
        (parabola.onto parabolaStored)).run ()).result = .ok (sol.onto parabolaStored) := by
  have hS : parabola.system.Presents (fun u _ => .ok (u.map fun x => x * x - 2.0))
      (some fun u _ => .ok (u.map fun x => .replicate 1 (2.0 * x))) :=
    ⟨fun _ _ => rfl, .some fun _ _ => rfl⟩
  have hone : ∀ {β : Type} {v w : Vector β 1}, v[0] = w[0] → v = w := by
    intro β v w h
    refine Vector.ext fun i hi => ?_
    obtain rfl : i = 0 := by omega
    exact h
  have hget : ∀ u : Vec Float 1, u.get 0 = u[0] := fun _ => rfl
  have hS' : parabolaStored.Presents (fun u _ => .ok (u.map fun x => x * x - 2.0))
      (some fun u _ => .ok (u.map fun x => .replicate 1 (2.0 * x))) := by
    refine ⟨fun u p out => ?_, .some fun u p out => ?_⟩
    · refine congrArg (Filled.mk · none) (hone ?_)
      simp [hget]
    · refine congrArg (Filled.mk · none) (hone (hone ?_))
      simp [hget]
  obtain ⟨hcandidate, hpresets⟩ := conventions_agree hS hS' parabola.start parabola.parameter .plain
  obtain ⟨s, hs, -⟩ := except_shown (f := fun _ : Session Float 1 => ())
    (x := (((Candidate.newton none Settings.initial).init .plain parabola).run ()).result) (c := ())
    (by decide +kernel)
  obtain ⟨sol, hsol, hcode⟩ := except_shown
    (f := fun sol : Solution Float 1 => (sol.code, sol.candidate))
    (x := (((⟨.robust, Settings.initial⟩ : Polyalgorithm).solve .plain parabola).run ()).result)
    (c := (.success, some 0)) (by decide +kernel)
  refine ⟨rfl, s, sol, hs, (hcandidate (.newton none Settings.initial) trivial).2 s hs, hsol, hcode,
    ?_⟩
  have hrobust := congrArg Outcome.result (hpresets Settings.initial).2
  exact hrobust.trans (congrArg (Except.map _) hsol)

end Rootfinder
