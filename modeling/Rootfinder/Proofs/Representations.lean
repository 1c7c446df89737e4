import Rootfinder.Linear.Textbook
import Rootfinder.Proofs.Configurations
import Rootfinder.Proofs.RunDecomposition

namespace Rootfinder

variable {α : Type} [Scalar α] {n : Nat}

/-- A program for the linear solves of a method. -/
abbrev LinearProgram (α : Type) (n : Nat) :=
  LinearSolver α → Linearized α n → Vec α n → List α → Parameter α → Act α Stats (Vec α n)

/-- The linear solve with another computation where a map without a matrix is refused. -/
def LinearSolver.solveOr (other : Act α Stats (Vec α n)) : LinearProgram α n := fun s A b u p => do
  Act.update Stats.countSolve
  match s.method, A with
  | .gmres, A => s.krylov A b u p
  | _, .operator _ => other
  | .lstsq, .dense A => s.leastSquares A b
  | .lu, .dense A => s.eliminate A b

namespace Newton

variable (solve : LinearProgram α n) (search : Option (LineSearch.Params α)) (l : Linearization α)
  (o : Options α)

def answer (steps : Int) : Except (Fault α) (Vec α n) → Act α (Iteration α n Unit) Unit
  | .ok delta => if delta.allFinite then follow search o delta else quit search o .failure
  | .error e =>
    if e.kind = .linearAlgebra then do
      Act.log (.linearSolveFailed (name search) steps e)
      quit search o .failure
    else Act.raise e

def advanceBy : Act α (Iteration α n Unit) Unit := do
  let it ← Act.read
  let J ← Iteration.counting
    (Jacobian.build l.concrete it.problem l.differencing it.u it.fu)
  let solved ← Act.attempt (Iteration.counting
    (solve l.solver J (-it.fu) it.u.toList it.problem.parameter))
  answer search o it.stats.nsteps solved

theorem advanceBy_solve : advanceBy LinearSolver.solve search l o = advance (n := n) search l o :=
  rfl

end Newton

namespace TrustRegion

variable (solve : LinearProgram α n) (scheme : Scheme) (prm : Params α) (l : Linearization α)
  (o : Options α)

def newtonStepBy (J : Mat α n n) : Act α (Iteration α n (Memory α n)) (Option (Vec α n)) := do
  let it ← Act.read
  match ← Act.attempt (Iteration.counting
      (solve l.solver (.dense J) (-it.fu) it.u.toList it.problem.parameter)) with
  | .ok s => pure (if s.allFinite then some s else none)
  | .error e => if e.kind = .linearAlgebra then pure none else Act.raise e

def advanceBy : Act α (Iteration α n (Memory α n)) Unit := do
  let J ← jacobian l
  let newton ← newtonStepBy solve l J
  let it ← Act.read
  let s ← Act.ofExcept (doglegStep J it.fu it.memory.radius newton)
  if s.allFinite then attemptStep scheme prm l o J s
  else Iteration.terminate (name scheme) o.norm .failure

end TrustRegion

namespace Algorithm

/-- The method with another program for its linear solves. -/
def methodBy (solve : LinearProgram α n) (o : Options α) : (a : Algorithm α) →
    Method α n (a.Memory n)
  | .newton search l => { Newton.method search l o n with
      advance := Newton.advanceBy solve search l o }
  | .trustRegion scheme prm l => { TrustRegion.method scheme prm l o n with
      advance := TrustRegion.advanceBy solve scheme prm l o }
  | .klement limit => Klement.method limit o n
  | .broyden limit => Broyden.method limit o n
  | .replay script => Replay.method script o n

def Misfit : Algorithm α → Prop
  | .newton _ l => l.concrete = false ∧ l.method ≠ .gmres
  | _ => False

end Algorithm

namespace LinearSolver

variable (other : Act α Stats (Vec α n)) (s : LinearSolver α)

theorem solveOr_dense (J : Mat α n n) : solveOr other s (.dense J) = s.solve (.dense J) := by
  obtain ⟨routines, method, preconditioner, rtol⟩ := s
  funext b u p
  cases method <;> rfl

theorem solveOr_gmres (h : s.method = .gmres) : solveOr other s = s.solve := by
  obtain ⟨routines, method, preconditioner, rtol⟩ := s
  obtain rfl : method = .gmres := h
  rfl

end LinearSolver

section Answered

variable (other : Act α Stats (Vec α n)) (o : Options α)

/-- A matrix that was asked for is one. -/
theorem Jacobian.wp_build_concrete (P : Problem α n) (d : Differencing α) (u fu : Vec α n)
    (s : Stats) :
    (build true P d u fu).wp (fun A _ => ∃ J, A = .dense J) (fun _ _ => True) s := by
  rw [build, Act.wp_bind, Act.wp_update, if_pos rfl, Act.wp_bind]
  exact Act.wp_of_forall _ (fun J _ => ⟨J, rfl⟩) fun _ _ => trivial

/-- With a matrix or the Krylov method, Newton's method never has its linear solve refused. -/
theorem Newton.advanceBy_solveOr (search : Option (LineSearch.Params α)) {l : Linearization α}
    (h : l.concrete = true ∨ l.method = .gmres) :
    advanceBy (LinearSolver.solveOr other) search l o = advance search l o := by
  rw [← advanceBy_solve]
  apply Act.ext
  intro it
  unfold advanceBy
  rw [Act.run_read_bind, Act.run_read_bind]
  refine Act.run_bind_congr fun A hA => ?_
  have hsolve : LinearSolver.solveOr other l.solver A = l.solver.solve A := by
    rcases h with hc | hm
    · rw [hc] at hA
      have hw : (Iteration.counting (Jacobian.build true it.problem l.differencing it.u it.fu)).wp
          (fun A _ => ∃ J, A = .dense J) (fun _ _ => True) it := by
        rw [Iteration.counting, Act.wp_zoom]
        exact Jacobian.wp_build_concrete _ _ _ _ _
      obtain ⟨J, rfl⟩ := hw.of_ok hA
      exact LinearSolver.solveOr_dense other l.solver J
    · rw [LinearSolver.solveOr_gmres other l.solver hm]
  rw [hsolve]

/-- A trust region solves with a matrix always. -/
theorem TrustRegion.advanceBy_solveOr (scheme : Scheme) (prm : Params α) (l : Linearization α) :
    advanceBy (LinearSolver.solveOr other) scheme prm l o = advance scheme prm l o := by
  have hstep : ∀ J : Mat α n n,
      newtonStepBy (LinearSolver.solveOr other) l J = newtonStep l J := by
    intro J
    unfold newtonStepBy
    rw [LinearSolver.solveOr_dense]
    rfl
  unfold advanceBy
  simp only [hstep]
  rfl

/-- Apart from misfits, no method depends on what a refused linear solve does. -/
theorem Algorithm.methodBy_solveOr {a : Algorithm α} (h : ¬ a.Misfit) :
    a.methodBy (LinearSolver.solveOr other) o = a.method o n := by
  cases a with
  | newton search l =>
    have hl : l.concrete = true ∨ l.method = .gmres := by
      cases hc : l.concrete with
      | true => exact .inl rfl
      | false => exact .inr (not_not.mp fun hm => h ⟨hc, hm⟩)
    simp only [methodBy, Newton.advanceBy_solveOr other o search hl]
    rfl
  | trustRegion scheme prm l =>
    simp only [methodBy, TrustRegion.advanceBy_solveOr]
    rfl
  | klement limit => rfl
  | broyden limit => rfl
  | replay script => rfl

end Answered

omit [Scalar α] in
theorem Act.run_update_bind {σ β : Type} (f : σ → σ) (x : Unit → Act α σ β) (s : σ) :
    (update f >>= x).run s = (x ()).run (f s) := rfl

section Refused

variable {search : Option (LineSearch.Params α)} {l : Linearization α} {o : Options α}
  {it : Iteration α n Unit}

/-- A map without a matrix is refused by every method but the Krylov one. -/
theorem LinearSolver.run_solve_refused {s : LinearSolver α} (h : s.method ≠ .gmres)
    (f : Vec α n → Act α Stats (Vec α n)) (b : Vec α n) (u : List α) (p : Parameter α)
    (stats : Stats) : (s.solve (.operator f) b u p).run stats =
      ⟨.error (.operatorOnly s.method.name), stats.countSolve, []⟩ := by
  obtain ⟨routines, method, preconditioner, rtol⟩ := s
  cases method with
  | gmres => exact absurd rfl h
  | lu => rfl
  | lstsq => rfl

/-- Without matrices, the Jacobian is a map by its products, unless the analytic one raises. -/
theorem Jacobian.run_build_products {P : Problem α n} {u : Vec α n}
    (h : P.system.hasJacobian = true → ∃ J, P.jacobian u = .ok J) (d : Differencing α)
    (fu : Vec α n) (stats : Stats) :
    ∃ f, (build false P d u fu).run stats = ⟨.ok (.operator f), stats.countJacobian, []⟩ := by
  cases hj : P.system.hasJacobian with
  | false =>
    refine ⟨directional P d u fu, ?_⟩
    simp only [build, operator, hj, Bool.false_eq_true, if_false]
    rfl
  | true =>
    obtain ⟨J, hJ⟩ := h hj
    refine ⟨fun v => pure (J.mulVec v), ?_⟩
    simp only [build, operator, hj, Bool.false_eq_true, if_false, if_true, hJ]
    rfl

/-- The linear solve of a misfit is refused, which ends the run where it is. -/
theorem Newton.run_advance_refused (search : Option (LineSearch.Params α)) (o : Options α)
    (hc : l.concrete = false) (hm : l.method ≠ .gmres)
    (hj : it.problem.system.hasJacobian = true → ∃ J, it.problem.jacobian it.u = .ok J) :
    ∃ t, (advance search l o).run it =
      ⟨.ok (), { it with
        code := .failure, stopped := true, stats := it.stats.countJacobian.countSolve },
       .note (.linearSolveFailed (name search) it.stats.nsteps
        (.operatorOnly l.method.name)) :: t⟩ := by
  obtain ⟨f, hf⟩ := Jacobian.run_build_products hj l.differencing it.fu it.stats
  unfold advance
  rw [Act.run_read_bind, hc]
  have hbuild : (Iteration.counting (Jacobian.build false it.problem l.differencing it.u it.fu)).run
      it = ⟨.ok (.operator f), { it with stats := it.stats.countJacobian }, []⟩ := by
    rw [Iteration.counting, Act.run_zoom, hf]
  rw [Act.run_bind_ok hbuild, List.nil_append]
  have hsolve : (Act.attempt (Iteration.counting (l.solver.solve (.operator f) (-it.fu) it.u.toList
      it.problem.parameter))).run { it with stats := it.stats.countJacobian } =
      ⟨.ok (.error (.operatorOnly l.method.name)),
       { it with stats := it.stats.countJacobian.countSolve }, []⟩ := by
    rw [Act.run_attempt, Iteration.counting, Act.run_zoom,
      LinearSolver.run_solve_refused hm]
    rfl
  rw [Act.run_bind_ok hsolve, List.nil_append]
  exact ⟨_, rfl⟩

/-- A step that the test lets begin and that ends the run inside. -/
theorem Iteration.run_step_ended {σ : Type} {m : Method α n σ} {it it' : Iteration α n σ}
    {t : List (Event α)} (ho : (it.tested m).terminated = false)
    (ha : m.advance.run it = ⟨.ok (), it', t⟩) (he : it'.terminated = true) :
    (step m).run it = ⟨.ok (), { it' with stats := it'.stats.countStep }, t⟩ := by
  obtain ⟨ht, hv, -⟩ := tested_eq_self ho
  have hcheck : (checkTermination m).run it = ⟨.ok (), it, []⟩ := by
    rw [checkTermination, Act.run_read_bind, hv]
    rfl
  have hconclude : (conclude m).run it' =
      ⟨.ok (), { it' with stats := it'.stats.countStep }, []⟩ := by
    have hcounted : terminated { it' with stats := it'.stats.countStep } = true := he
    rw [conclude, Act.run_update_bind, Act.run_read_bind, if_pos hcounted]
    rfl
  rw [step, Act.run_read_bind, if_neg (by simp [ht]), Act.run_bind_ok hcheck, Act.run_read_bind,
    if_neg (by simp [ht]), Act.run_bind_ok ha, hconclude, List.append_nil, List.nil_append]

/-- Every step that a misfit begins ends its run in failure where it is, unless the analytic
Jacobian raises. -/
theorem Newton.run_step_refused (hc : l.concrete = false) (hm : l.method ≠ .gmres)
    (ho : (it.tested (method search l o n)).terminated = false)
    (hj : it.problem.system.hasJacobian = true → ∃ J, it.problem.jacobian it.u = .ok J) :
    ∃ t, (Iteration.step (method search l o n)).run it =
      ⟨.ok (), { it with
        code := .failure, stopped := true
        stats := it.stats.countJacobian.countSolve.countStep },
       .note (.linearSolveFailed (name search) it.stats.nsteps
        (.operatorOnly l.method.name)) :: t⟩ := by
  obtain ⟨t, ha⟩ := run_advance_refused search o hc hm hj
  exact ⟨t, Iteration.run_step_ended ho ha rfl⟩

end Refused

/-- A number that equals false without being it. -/
def Value.IsZero (v : Value) : Prop :=
  v.same (.bool false) = true ∧ Configuration.isFalse v = false

/-- No value equals both truth values. -/
theorem Value.same_true_of_same_false {v : Value} (h : v.same (.bool false) = true) :
    v.same (.bool true) = false := by
  cases v with
  | none => rfl
  | bool b =>
    cases b with
    | false => rfl
    | true => cases h
  | int i =>
    simp only [same, whole?, Bool.false_eq_true, if_false, if_true, beq_iff_eq] at h ⊢
    subst h
    rfl
  | num x =>
    simp only [same, whole?, Bool.false_eq_true, if_false, if_true, wholeIs] at h ⊢
    cases hd : Decimal.Dyadic.ofFloat? x with
    | none => rfl
    | some d =>
      simp only [hd, Int.zero_mul, beq_iff_eq] at h
      simp only [beq_eq_false_iff_ne, Int.one_mul, ← h]
      have hpos : 0 < Nat.pow 2 (-d.exponent).toNat := Nat.pow_pos (by decide)
      omega
  | text s => rfl
  | list vs => rfl
  | record fs => rfl

namespace Configuration

variable {c : Configuration}

/-- Under another method than the Krylov one, Jacobians are given by products exactly if the field
for it holds a zero. -/
theorem Checked.concrete_eq_false_iff [LinearRoutines Float] (hc : c.Checked)
    (hm : c.linear ≠ some .gmres) :
    c.linearization.concrete = false ↔ c.concrete.IsZero := by
  obtain ⟨d, m, p, v⟩ := c
  have hf : isFalse v = false := by
    cases hf : isFalse v with
    | false => rfl
    | true => exact absurd (hc.krylov hf) hm
  have hmb : (m != some .gmres) = true := by simpa using hm
  change (usesConcreteJacobian ⟨d, m, p, v⟩).same (.bool true) = false ↔ v.IsZero
  obtain hv | ht | ht := hc.truth
  · obtain rfl : v = .none := hv
    simp [usesConcreteJacobian, Value.IsZero, hmb, Value.same, Value.whole?]
  · have hv : usesConcreteJacobian ⟨d, m, p, v⟩ = v := by
      cases v <;> first | rfl | cases ht
    rw [hv]
    constructor
    · intro h
      rw [h] at ht
      cases ht
    · exact fun h => Value.same_true_of_same_false h.1
  · have hv : usesConcreteJacobian ⟨d, m, p, v⟩ = v := by
      cases v <;> first | rfl | cases ht
    rw [hv]
    exact ⟨fun _ => ⟨ht, hf⟩, fun _ => Value.same_true_of_same_false ht⟩

/-- A zero for matrices beside a method that needs them. -/
structure Misfit (c : Configuration) : Prop where
  zero : c.concrete.IsZero
  method : c.linear ≠ some .gmres

/-- The checks let every misfit pass. -/
theorem Misfit.accepted (h : c.Misfit) : c.Accepted := by
  refine Checked.accepted ⟨.inr (.inr h.zero.1), fun hf => ?_⟩
  rw [h.zero.2] at hf
  cases hf

variable [LinearRoutines Float]

theorem Checked.misfit_iff (hc : c.Checked) :
    c.Misfit ↔ c.linearization.concrete = false ∧ c.linear ≠ some .gmres := by
  constructor
  · exact fun h => ⟨(hc.concrete_eq_false_iff h.method).mpr h.zero, h.method⟩
  · exact fun h => ⟨(hc.concrete_eq_false_iff h.2).mp h.1, h.2⟩

theorem linearization_method_eq : c.linearization.method = .gmres ↔ c.linear = some .gmres := by
  obtain ⟨d, m, p, v⟩ := c
  cases m with
  | none => simp [linearization]
  | some m => simp [linearization]

end Configuration

/-- The algorithm of a candidate is a misfit if it is Newton's method and its configuration one. -/
theorem Candidate.misfit_iff [LinearRoutines Float] {k : Candidate} (hc : k.configuration.Checked) :
    k.algorithm.Misfit ↔
      k.configuration.Misfit ∧ ∃ search, k = .newton search k.configuration := by
  cases k with
  | newton search c =>
    rw [hc.misfit_iff]
    simp [algorithm, Algorithm.Misfit, configuration, Configuration.linearization_method_eq]
  | trustRegion scheme rule c => simp [algorithm, Algorithm.Misfit]
  | klement limit c => simp [algorithm, Algorithm.Misfit]
  | broyden limit c => simp [algorithm, Algorithm.Misfit]
  | replay script c => simp [algorithm, Algorithm.Misfit]

/-- Every accepted configuration that has Jacobians given by their products has the Krylov method,
unless it is a misfit, and all misfits are accepted. Under a misfit, every step that Newton's method
begins has its linear solve refused and ends the run in failure where it is, unless the analytic
Jacobian raises. All other candidates under accepted configurations, and those of misfits that are
not Newton's method, are the same programs whatever is done where a linear solve is refused. -/
theorem linear_solves_refused_by_misfits_only [LinearRoutines Float] {c : Configuration}
    (hc : c.Accepted) :
    (c.linearization.concrete = false → c.linear = some .gmres ∨ c.Misfit) ∧
    (c.Misfit → c.linearization.concrete = false ∧ c.linear ≠ some .gmres) ∧
    ∀ (k : Candidate), k.configuration = c → ∀ (n : Nat) (o : Options Float),
      ((c.Misfit → ∀ search, k ≠ .newton search c) → ∀ other : Act Float Stats (Vec Float n),
        k.algorithm.methodBy (LinearSolver.solveOr other) o = k.algorithm.method o n) ∧
      ∀ search, k = .newton search c → c.Misfit → ∀ it : Iteration Float n Unit,
        (it.tested ((Candidate.newton search c).algorithm.method o n)).terminated = false →
        (it.problem.system.hasJacobian = true → ∃ J, it.problem.jacobian it.u = .ok J) →
        ∃ t, (Iteration.step ((Candidate.newton search c).algorithm.method o n)).run it =
          ⟨.ok (), { it with
            code := .failure, stopped := true
            stats := it.stats.countJacobian.countSolve.countStep },
           .note (.linearSolveFailed k.name it.stats.nsteps
            (.operatorOnly c.linearization.method.name)) :: t⟩ := by
  have hchecked := hc.checked
  refine ⟨fun h => ?_, hchecked.misfit_iff.mp, fun k hk n o => ⟨fun h other => ?_, ?_⟩⟩
  · by_cases hm : c.linear = some .gmres
    · exact .inl hm
    · exact .inr (hchecked.misfit_iff.mpr ⟨h, hm⟩)
  · subst hk
    refine Algorithm.methodBy_solveOr other o fun ha => ?_
    obtain ⟨hmisfit, search, hnewton⟩ := (Candidate.misfit_iff hchecked).mp ha
    exact h hmisfit search hnewton
  · rintro search rfl hmisfit it ho hj
    obtain ⟨hconcrete, hm⟩ := hchecked.misfit_iff.mp hmisfit
    exact Newton.run_step_refused hconcrete
      (fun h => hm (Configuration.linearization_method_eq.mp h)) ho hj

/-- A zero for matrices beside elimination. -/
def Configuration.zeroed : Configuration := ⟨Settings.initial, some .lu, none, .int 0⟩

theorem Configuration.zeroed_misfit : zeroed.Misfit := ⟨⟨rfl, rfl⟩, by decide⟩

theorem linear_solves_refused_zeroed : Configuration.zeroed.Accepted ∧
    Configuration.zeroed.linearization.concrete = false ∧
    ∀ (n : Nat) (o : Options Float) (other : Act Float Stats (Vec Float n)),
      (Candidate.customary .simple .zeroed).algorithm.methodBy (LinearSolver.solveOr other) o =
        (Candidate.customary .simple .zeroed).algorithm.method o n := by
  have haccepted := Configuration.zeroed_misfit.accepted
  obtain ⟨-, hmisfit, hcandidates⟩ := linear_solves_refused_by_misfits_only haccepted
  refine ⟨haccepted, (hmisfit Configuration.zeroed_misfit).1, fun n o other => ?_⟩
  exact (hcandidates (.customary .simple .zeroed) rfl n o).1 (fun _ _ h => by cases h) other

/-- Keywords that are accepted though Jacobians are then given by products to elimination. -/
theorem products_reach_elimination : ∃ c : Configuration,
    Settings.make [("linsolve", .plain (.text "lu")), ("concrete_jac", .plain (.int 0))] = .ok c ∧
      c.linearization.concrete = false ∧ c.linear = some .lu := by
  refine ⟨.zeroed, ?_, rfl, rfl⟩
  rw [Configuration.make_eq_ok]
  refine ⟨by decide, Configuration.zeroed_misfit.accepted.checked, ?_⟩
  exact Configuration.holds_iff.mpr ⟨rfl, rfl, rfl, rfl⟩

end Rootfinder
