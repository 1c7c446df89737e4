import Rootfinder.Proofs.Conventions

namespace Rootfinder

open Act

variable {α : Type} [Scalar α] {n : Nat}

/-- A Krylov solve without a preconditioner depends on the products of its matrix alone. -/
theorem LinearSolver.solve_eq_of_products {s : LinearSolver α} (hm : s.method = .gmres)
    (hp : s.preconditioner = none) {A A' : Linearized α n} (h : A.product = A'.product) :
    s.solve A = s.solve A' := by
  obtain ⟨routines, method, preconditioner, rtol⟩ := s
  obtain rfl : method = .gmres := hm
  obtain rfl : preconditioner = none := hp
  funext b u p
  simp only [solve, krylov, h]

/-- An analytic Jacobian has the same products in either representation. -/
theorem Jacobian.lockstep_build {P : Problem α n} (hj : P.system.hasJacobian = true)
    (d : Differencing α) (u fu : Vec α n) (concrete concrete' : Bool) :
    Lockstep Eq (fun A A' : Linearized α n => A.product = A'.product)
      (build concrete P d u fu) (build concrete' P d u fu) := by
  have hone : ∀ concrete, build concrete P d u fu = (do
      Act.update Stats.countJacobian
      let J ← Act.ofExcept (P.jacobian u)
      pure (if concrete then .dense J else .operator fun v => pure (J.mulVec v))) := by
    intro concrete
    cases concrete <;> simp [build, operator, matrix, hj]
  rw [hone, hone]
  refine lockstep_rfl.seq fun _ => (lockstep_ofExcept (matching_refl _)).seq fun J => ?_
  have hproduct : ∀ concrete : Bool, Linearized.product
      (if concrete then .dense J else .operator fun v => pure (J.mulVec v)) =
        fun v => pure (J.mulVec v) := by
    intro concrete
    cases concrete <;> rfl
  exact lockstep_pure (by rw [hproduct, hproduct])

/-- Linearizations by Krylov solves that use nothing but products. -/
structure Linearization.ByProducts (l : Linearization α) : Prop where
  method : l.method = .gmres
  preconditioner : l.preconditioner = none

def Linearization.represented (l : Linearization α) (concrete : Bool) : Linearization α :=
  { l with concrete := concrete }

theorem Newton.lockstep_represented {S : System α n} (hj : S.hasJacobian = true)
    (search : Option (LineSearch.Params α)) {l : Linearization α} (hl : l.ByProducts)
    (o : Options α) (concrete : Bool) :
    Lockstep (Iteration.Across S S) Eq (advance search l o)
      (advance search (l.represented concrete) o) := by
  refine lockstep_advance search o S.agrees_refl fun P u fu hP => ?_
  subst hP
  exact (Jacobian.lockstep_build hj _ u fu _ _).imp fun A A' h =>
    LinearSolver.solve_eq_of_products hl.method hl.preconditioner h

namespace Session

/-- The same session in another representation of the Jacobian. -/
def represented (concrete : Bool) : Session α n → Session α n
  | ⟨.newton search l, o, it⟩ => ⟨.newton search (l.represented concrete), o, it⟩
  | s => s

inductive Represented (concrete : Bool) : Session α n → Session α n → Prop where
  | newton {search : Option (LineSearch.Params α)} {l : Linearization α} {o : Options α}
      {it : Iteration α n Unit} (products : l.ByProducts)
      (analytic : it.problem.system.hasJacobian = true) :
      Represented concrete ⟨.newton search l, o, it⟩
        ⟨.newton search (l.represented concrete), o, it⟩

theorem Represented.eq {concrete : Bool} {s s' : Session α n} (h : Represented concrete s s') :
    s' = s.represented concrete := by
  cases h
  rfl

variable {concrete : Bool}

/-- What Newton's method does in lockstep in both representations, its sessions do. -/
theorem lockstep_represented {β : Type} {Q : β → β → Prop}
    (x : (σ : Type) → Method α n σ → Act α (Iteration α n σ) β)
    (h : ∀ (S : System α n) (search : Option (LineSearch.Params α)) (l : Linearization α)
      (o : Options α), S.hasJacobian = true → l.ByProducts →
      Lockstep (Iteration.Across S S) Q (x _ (Newton.method search l o n))
        (x _ (Newton.method search (l.represented concrete) o n))) :
    Lockstep (Represented concrete) Q (on fun s => x _ s.method) (on fun s => x _ s.method) := by
  intro s s' hs
  cases hs with
  | @newton search l o it hl hj =>
    obtain ⟨hr, ⟨hs, ho⟩, ht⟩ := h it.problem.system search l o hj hl it it ⟨rfl, rfl⟩
    refine ⟨hr, ?_, ht⟩
    have hstate : ((x _ (Newton.method search (l.represented concrete) o n)).run it).state =
        ((x _ (Newton.method search l o n)).run it).state := by
      rw [ho, ← hs]
      rfl
    change Represented concrete ⟨.newton search l, o, _⟩
      ⟨.newton search (l.represented concrete), o,
        ((x _ (Newton.method search (l.represented concrete) o n)).run it).state⟩
    rw [hstate]
    exact .newton hl (hs ▸ hj)

theorem lockstep_step_represented : Lockstep (Represented (n := n) concrete) Eq
    (step : Act α (Session α n) Unit) step :=
  lockstep_represented (fun _ m => Iteration.step m) fun _ search _ o hj hl =>
    Iteration.lockstep_step ⟨rfl, rfl, rfl⟩ (Newton.lockstep_represented hj search hl o concrete)

theorem lockstep_solve_represented : Lockstep (Represented (n := n) concrete) Eq
    (solve : Act α (Session α n) (Run α n)) solve := by
  refine lockstep_represented (fun _ m => Iteration.solve m) fun S search _ o hj hl => ?_
  have hadvance := Newton.lockstep_represented hj search hl o concrete
  refine Lockstep.imp (Iteration.lockstep_solve ⟨rfl, rfl, rfl⟩ hadvance) fun r r' h => ?_
  obtain ⟨rfl, rfl⟩ := h
  rfl

theorem lockstep_reinit_represented (start : Option (List α)) (parameter : Option (Parameter α)) :
    Lockstep (Represented (n := n) concrete) Eq (reinit start parameter)
      (reinit start parameter) :=
  lockstep_represented (fun _ m => Iteration.reinit m start parameter) fun S _ _ _ _ _ =>
    Iteration.lockstep_reinit S.agrees_refl ⟨rfl, rfl, rfl⟩ start parameter

end Session

section Candidates

variable {n : Nat} {configuration : Configuration} {problem : Problem Float n}

/-- The configuration with another choice between matrices and products. -/
def Configuration.choosing (configuration : Configuration) (concrete : Value) : Configuration :=
  { configuration with concrete := concrete }

variable [LinearRoutines Float] (search : Option Backtracking)
  (hl : configuration.linearization.ByProducts) (hj : problem.system.hasJacobian = true)
  (call : Call) (concrete : Value)

include hl hj

theorem Candidate.lockstep_init_represented : Lockstep Eq
    (Session.Represented (configuration.choosing concrete).linearization.concrete)
    ((Candidate.newton search configuration).init call problem)
    ((Candidate.newton search (configuration.choosing concrete)).init call problem) := by
  unfold init
  split
  · exact lockstep_raise _
  · refine Lockstep.ite (lockstep_raise _) ?_
    refine (lockstep_ofExcept (matching_refl _)).seq fun o => ?_
    unfold Session.start
    refine Lockstep.bind (Iteration.lockstep_start problem.system.agrees_refl
      ⟨rfl, rfl, rfl⟩ rfl) ?_
    rintro it _ ⟨hs, rfl⟩
    have honto : it.onto problem.system = it := by
      rw [← hs]
      rfl
    rw [honto]
    exact lockstep_pure (.newton hl (hs ▸ hj))

end Candidates

/-- Newton's method by Krylov solves without a preconditioner does not depend on whether an analytic
Jacobian is materialised. It is set to work either way or neither way, its sessions have the same
outcomes of all that is asked of them, and its solves are the same to the last counter. -/
theorem representations_agree [LinearRoutines Float] {n : Nat} {configuration : Configuration}
    (hl : configuration.linear = some .gmres) (hp : configuration.preconditioning = none)
    {problem : Problem Float n} (hj : problem.system.hasJacobian = true)
    (search : Option Backtracking) (call : Call) (concrete : Value) :
    let c := Candidate.newton search configuration
    let c' := Candidate.newton search (configuration.choosing concrete)
    let represented : Session Float n → Session Float n :=
      Session.represented (configuration.choosing concrete).linearization.concrete
    (c'.init call problem).run () = ((c.init call problem).run ()).image id represented ∧
      (∀ s, ((c.init call problem).run ()).result = .ok s → ∀ requests,
        Act.transcript Session.serve (represented s) requests =
          (Act.transcript Session.serve s requests).map (Outcome.image represented id)) ∧
      (c'.solve call problem).run () = (c.solve call problem).run () := by
  intro c c' represented
  have hproducts : configuration.linearization.ByProducts := by
    constructor
    · rw [Configuration.linearization, hl]
      rfl
    · rw [Configuration.linearization, hp]
      rfl
  have hinit := Candidate.lockstep_init_represented search hproducts hj call concrete
  refine ⟨(hinit () () rfl).image (fun _ _ _ => rfl) fun _ _ h => h.eq, fun s hs requests => ?_, ?_⟩
  · have hstarted := (hinit () () rfl).result
    rw [hs] at hstarted
    have hs' : Session.Represented (configuration.choosing concrete).linearization.concrete s
        (represented s) := by
      generalize ((c'.init call problem).run ()).result = r at hstarted
      cases hstarted with
      | ok h =>
        obtain rfl := h.eq
        exact h
    refine Act.transcript_image (fun _ _ h => h.eq) (fun a a' (ha : a = a') => ha.symm)
      (fun request => ?_) hs' requests
    refine Session.lockstep_serve Session.lockstep_step_represented
      Session.lockstep_solve_represented Session.lockstep_reinit_represented rfl ?_ request
    rintro r _ rfl
    rfl
  · have hsolve : Lockstep Eq Eq (c.solve call problem) (c'.solve call problem) :=
      hinit.bind fun s s' hs => Session.lockstep_solve_represented.within hs
    exact (hsolve () () rfl).eq

/-- A configuration of Krylov solves, with the representation of the Jacobian left open. -/
def krylovian : Configuration := ⟨Settings.initial, some .gmres, none, .none⟩

theorem representations_agree_parabola : ∃ r s,
    (((Candidate.newton none krylovian).solve .plain parabola).run ()).result = .ok r ∧
    (r.code, r.stats) = (.success, ⟨3, 4, 3, 0, 3⟩) ∧
    (((Candidate.newton none (krylovian.choosing (.bool true))).solve .plain parabola).run
      ()).result = .ok r ∧
    (((Candidate.newton none krylovian).init .plain parabola).run ()).result = .ok s ∧
    ∀ requests, Act.transcript Session.serve (s.represented true) requests =
      (Act.transcript Session.serve s requests).map (Outcome.image (·.represented true) id) := by
  obtain ⟨r, hr, hcode⟩ := except_shown (f := fun r : Run Float 1 => (r.code, r.stats))
    (x := (((Candidate.newton none krylovian).solve .plain parabola).run ()).result)
    (c := (.success, ⟨3, 4, 3, 0, 3⟩)) (by decide +kernel)
  obtain ⟨s, hs, -⟩ := except_shown (f := fun _ : Session Float 1 => ())
    (x := (((Candidate.newton none krylovian).init .plain parabola).run ()).result) (c := ())
    (by decide +kernel)
  have hl : krylovian.linear = some .gmres := rfl
  have hj : parabola.system.hasJacobian = true := rfl
  obtain ⟨-, htranscript, hsolve⟩ := representations_agree hl rfl hj none .plain (.bool true)
  refine ⟨r, s, hr, hcode, ?_, hs, htranscript s hs⟩
  exact (congrArg Outcome.result hsolve).trans hr

end Rootfinder
