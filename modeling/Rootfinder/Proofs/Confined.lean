import Rootfinder.Proofs.Quitting

namespace Rootfinder

variable {α β γ σ τ : Type} {n : Nat}

namespace Act

/-- A computation keeps a property of states, and from states with it raises only faults of some
kind. -/
def Confined (I : σ → Prop) (E : Fault α → Prop) (x : Act α σ β) : Prop :=
  ∀ s, I s → x.wp (fun _ => I) (fun e s' => E e ∧ I s') s

section Rules

variable {I : σ → Prop} {E E' : Fault α → Prop} {x : Act α σ β}

theorem Confined.imp (h : x.Confined I E) (hE : ∀ e, E e → E' e) : x.Confined I E' :=
  fun s hs => (h s hs).mono (fun _ _ h => h) fun e _ h => ⟨hE e h.1, h.2⟩

theorem confined_pure (b : β) : (pure b : Act α σ β).Confined I E := fun _ hs => hs

theorem confined_raise {e : Fault α} (h : E e) : (raise e : Act α σ β).Confined I E :=
  fun _ hs => ⟨h, hs⟩

theorem confined_log (note : Note α) : (log note : Act α σ Unit).Confined I E := fun _ hs => hs

theorem confined_ofExcept {r : Except (Fault α) β} (h : ∀ e, r = .error e → E e) :
    (ofExcept r : Act α σ β).Confined I E := by
  cases r with
  | ok b => exact confined_pure b
  | error e => exact confined_raise (h e rfl)

theorem Confined.bind {f : β → Act α σ γ} (hx : x.Confined I E) (hf : ∀ b, (f b).Confined I E) :
    (x >>= f).Confined I E := by
  intro s hs
  rw [wp_bind]
  exact (hx s hs).mono (fun b s' hs' => hf b s' hs') fun _ _ h => h

/-- What is read has the property. -/
theorem confined_read_bind {f : σ → Act α σ γ} (hf : ∀ s, I s → (f s).Confined I E) :
    (read >>= f).Confined I E := by
  intro s hs
  rw [wp_bind, wp_read]
  exact hf s hs s hs

/-- A fault that is handed over as a value is one of those that may be raised. -/
theorem Confined.attempt_bind {f : Except (Fault α) β → Act α σ γ} (hx : x.Confined I E)
    (hok : ∀ b, (f (.ok b)).Confined I E') (herror : ∀ e, E e → (f (.error e)).Confined I E') :
    (attempt x >>= f).Confined I E' := by
  intro s hs
  rw [wp_bind, wp_attempt]
  exact (hx s hs).mono (fun b s' hs' => hok b s' hs') fun e s' h => herror e h.1 s' h.2

theorem Confined.ite {c : Prop} [Decidable c] {y : Act α σ β} (hx : c → x.Confined I E)
    (hy : ¬ c → y.Confined I E) : (if c then x else y).Confined I E := by
  split
  · exact hx ‹_›
  · exact hy ‹_›

/-- A computation on a part is confined like the part, and keeps what it keeps of it. -/
theorem Confined.zoom {J : τ → Prop} {get : σ → τ} {put : τ → σ → σ} {x : Act α τ β}
    (hx : x.Confined J E) (hget : ∀ s, I s → J (get s)) (hput : ∀ t s, I s → J t → I (put t s)) :
    (zoom get put x).Confined I E := by
  intro s hs
  rw [wp_zoom]
  exact (hx _ (hget s hs)).mono (fun _ t ht => hput t s hs ht) fun _ t h => ⟨h.1, hput t s hs h.2⟩

end Rules

end Act

/-- A system whose functions return at every point, whatever they return. -/
def System.Quiet (p : Parameter α) : System α n → Prop
  | .outOfPlace f jacobian => (∀ u, (f u p).isOk = true) ∧
    ∀ j ∈ jacobian, ∀ u, (j u p).isOk = true
  | .inPlace f jacobian => (∀ u, (f u p).fault = none) ∧ ∀ j ∈ jacobian, ∀ u, (j u p).fault = none

/-- Nothing is raised where the functions of the problem are evaluated. -/
def Problem.Quiet (P : Problem α n) : Prop := P.system.Quiet P.parameter

namespace Problem.Quiet

variable {P : Problem α n}

theorem residualInto (h : P.Quiet) (u out : Vec α n) : (P.residualInto u out).fault = none := by
  obtain ⟨system, start, p⟩ := P
  cases system with
  | outOfPlace f jacobian =>
    have hf := h.1 u
    simp only [Problem.residualInto]
    cases hr : f u p with
    | ok r => rfl
    | error e => rw [hr] at hf; cases hf
  | inPlace f jacobian => exact h.1 u

variable [Scalar α]

theorem residual (h : P.Quiet) (u : Vec α n) : ∃ r, P.residual u = .ok r := by
  rw [Problem.residual, Filled.toExcept, h.residualInto u]
  exact ⟨_, rfl⟩

theorem jacobian (h : P.Quiet) (hJ : P.system.hasJacobian = true) (u : Vec α n) :
    ∃ J, P.jacobian u = .ok J := by
  obtain ⟨system, start, p⟩ := P
  cases system with
  | outOfPlace f jacobian =>
    obtain ⟨j, rfl⟩ := Option.isSome_iff_exists.mp hJ
    have hj := h.2 j rfl u
    simp only [Problem.jacobian]
    cases hr : j u p with
    | ok J => exact ⟨J, rfl⟩
    | error e => rw [hr] at hj; cases hj
  | inPlace f jacobian =>
    obtain ⟨j, rfl⟩ := Option.isSome_iff_exists.mp hJ
    have hj := h.2 j rfl u
    refine ⟨((j u p).fillMat (Mat.zero n n)).array, ?_⟩
    simp only [Problem.jacobian, Filled.toExcept, Writes.fillMat, hj]

end Problem.Quiet

abbrev Free {σ : Type} : σ → Prop := fun _ => True

theorem Inquiry.confined_run {β : Type} {E : Fault α → Prop}
    {product : Vec α n → Act α Stats (Vec α n)} (hp : ∀ v, (product v).Confined Free E)
    (q : Inquiry α n β) : (q.run product).Confined Free E := by
  induction q with
  | done b => exact Act.confined_pure b
  | ask v next ih => exact (hp v).bind ih

variable [Scalar α]

/-- The perturbation of differences cannot be used, and there is no Jacobian instead of them. -/
def Differencing.Unusable (d : Differencing α) (S : System α n) (e : Fault α) : Prop :=
  S.hasJacobian = false ∧ d.step = .error e

section Linear

variable {P : Problem α n} {d : Differencing α} {E : Fault α → Prop}

namespace Jacobian

variable {u fu : Vec α n}

theorem confined_probe (hq : P.Quiet) (x : Vec α n) : (probe P x).Confined Free E := by
  obtain ⟨r, hr⟩ := hq.residual x
  rw [probe, hr]
  exact (Act.confined_pure r).bind fun r => Act.Confined.bind (fun _ h => h) fun _ =>
    Act.confined_pure r

theorem confined_directional (hq : P.Quiet) (v : Vec α n) :
    (directional P d u fu v).Confined Free fun e => d.step = .error e := by
  refine Act.Confined.ite (fun _ => Act.confined_pure _) fun _ => ?_
  refine (Act.confined_ofExcept fun _ h => h).bind fun step => ?_
  refine (Act.confined_pure v).bind fun v => (confined_probe hq _).bind fun ahead => ?_
  refine Act.Confined.ite (fun _ => ?_) fun _ => Act.confined_pure _
  exact (confined_probe hq _).bind fun behind => Act.confined_pure _

theorem confined_differences (hq : P.Quiet) :
    (differences P d u fu).Confined Free fun e => d.step = .error e := by
  unfold differences
  generalize (Mat.zero n n : Mat α n n) = J
  induction List.finRange n generalizing J with
  | nil => exact Act.confined_pure _
  | cons j js ih =>
    rw [List.foldlM_cons]
    exact ((confined_directional hq _).bind fun c => Act.confined_pure _).bind ih

theorem confined_matrix (hq : P.Quiet) :
    (matrix P d u fu).Confined Free (d.Unusable P.system) := by
  refine Act.Confined.ite (fun hJ => ?_) fun hJ => ?_
  · obtain ⟨J, hr⟩ := hq.jacobian hJ u
    rw [hr]
    exact Act.confined_pure J
  · exact (confined_differences hq).imp fun e he => ⟨by simpa using hJ, he⟩

theorem confined_dense (hq : P.Quiet) : (dense P d u fu).Confined Free (d.Unusable P.system) :=
  Act.Confined.bind (fun _ h => h) fun _ => confined_matrix hq

/-- In either representation, the Jacobian and its products raise only for the step of
differences. -/
theorem wp_build_confined (hq : P.Quiet) (concrete : Bool) (s : Stats) :
    (build concrete P d u fu).wp
      (fun J _ => ∀ v, (J.product v).Confined Free (d.Unusable P.system))
      (fun e _ => d.Unusable P.system e) s := by
  rw [build, Act.wp_bind, Act.wp_update]
  split
  · rw [Act.wp_bind]
    exact (confined_matrix hq _ trivial).mono (fun J _ _ v => Act.confined_pure _) fun _ _ h => h.1
  · unfold operator
    split
    · rename_i hJ
      obtain ⟨J, hr⟩ := hq.jacobian hJ u
      rw [Act.wp_bind, hr, Act.wp_ofExcept_ok]
      exact fun v => Act.confined_pure _
    · rename_i hJ
      exact fun v => (confined_directional hq v).imp fun e he => ⟨by simpa using hJ, he⟩

end Jacobian

namespace LinearSolver

/-- Least squares are asked for the solution of a system that is not finite. -/
def Overrun (s : LinearSolver α) (A : Linearized α n) (b : Vec α n) : Prop :=
  s.method = .lstsq ∧ ∃ J, A = .dense J ∧ (J.allFinite && b.allFinite) = false

theorem confined_eliminate (s : LinearSolver α) (A : Mat α n n) (b : Vec α n) :
    (s.eliminate A b).Confined Free fun e => e.kind = .linearAlgebra := by
  have hfactorize : (s.factorize A).Confined Free fun e => e.kind = .linearAlgebra := by
    refine Act.Confined.ite (fun _ => Act.confined_raise rfl) fun _ => ?_
    refine Act.Confined.bind (fun _ h => h) fun _ => ?_
    exact Act.Confined.ite (fun _ => Act.confined_raise rfl) fun _ => Act.confined_pure _
  exact hfactorize.bind fun _ => Act.confined_pure _

omit [Scalar α] in
theorem confined_answer (s : LinearSolver α) (x : Vec α n) (info : Int) :
    (s.answer x info).Confined Free fun e => e.kind = .linearAlgebra := by
  refine Act.Confined.ite (fun _ => Act.confined_raise rfl) fun _ => ?_
  exact Act.Confined.ite (fun _ => (Act.confined_log _).bind fun _ => Act.confined_pure _)
    fun _ => Act.confined_pure _

/-- A solve without a preconditioner raises an error of linear algebra, what the products raise, or
that least squares were asked for too much. -/
theorem confined_solve {s : LinearSolver α} (hp : s.preconditioner = none) {A : Linearized α n}
    (hA : ∀ v, (A.product v).Confined Free E) (b : Vec α n) (u : List α) (p : Parameter α) :
    (s.solve A b u p).Confined Free fun e =>
      e.kind = .linearAlgebra ∨ E e ∨ e = .nonFiniteSystem ∧ s.Overrun A b := by
  refine Act.Confined.bind (fun _ h => h) fun _ => ?_
  split
  · rw [krylov, hp]
    refine (Act.confined_pure _).bind fun M => ?_
    refine ((Inquiry.confined_run hA _).imp fun _ h => .inr (.inl h)).bind fun r => ?_
    exact (s.confined_answer r.1 r.2).imp fun _ h => .inl h
  · exact Act.confined_raise (.inl rfl)
  · rename_i J hm
    refine Act.Confined.ite (fun _ => ?_) fun hinfinite => ?_
    · split
      · exact Act.confined_pure _
      · exact Act.confined_raise (.inl rfl)
    · exact Act.confined_raise (.inr (.inr ⟨rfl, hm, J, rfl, by simpa using hinfinite⟩))
  · exact (s.confined_eliminate _ b).imp fun _ h => .inl h

/-- Least squares that are asked for too much do raise. -/
theorem Overrun.raises {s : LinearSolver α} {A : Linearized α n} {b : Vec α n} (h : s.Overrun A b)
    (u : List α) (p : Parameter α) (k : Stats) :
    ((s.solve A b u p).run k).result = .error .nonFiniteSystem := by
  obtain ⟨routines, method, preconditioner, rtol⟩ := s
  obtain ⟨rfl, J, rfl, hinfinite⟩ := h
  change ((Act.update Stats.countSolve >>= fun _ => leastSquares _ J b).run k).result = _
  rw [leastSquares, hinfinite, if_neg Bool.false_ne_true]
  rfl

end LinearSolver

end Linear

namespace LineSearch

/-- Whether step lengths from one on come below the least in so many trials, shrinking each time. -/
def Params.descends (prm : Params α) : Nat → α → Bool
  | 0, _ => false
  | k + 1, a =>
    if prm.minAlpha ≤ a then a * prm.reduction < a && prm.descends k (a * prm.reduction) else true

theorem Params.descends_mono {prm : Params α} {k j : Nat} (hkj : k ≤ j) {a : α}
    (h : prm.descends k a = true) : prm.descends j a = true := by
  induction k generalizing j a with
  | zero => cases h
  | succ k ih =>
    obtain ⟨j, rfl⟩ : ∃ i, j = i + 1 := ⟨j - 1, by omega⟩
    rw [descends] at h ⊢
    split
    · rename_i hle
      rw [if_pos hle, Bool.and_eq_true] at h
      rw [h.1, ih (by omega) h.2]
      rfl
    · rfl

/-- The cap on steps cannot be used, or the lengths of a search that finds nothing never come below
the least. -/
inductive Params.Unusable (prm : Params α) : Fault α → Prop where
  | cap {e : Fault α} (h : prm.maxDelta = .error e) : Unusable prm e
  | lengths (h : prm.descends patience 1.0 = false) : Unusable prm .endless

variable {I : σ → Prop}

theorem Search.confined_trials {s : Search α σ n}
    (hr : ∀ x, (s.residual x).Confined I fun _ => False) (fuel : Nat) (a : α)
    (best : Option (Trial α n)) : (s.trials fuel a best).Confined I fun e =>
      e.kind = .convergence ∨ e = .endless ∧ s.params.descends fuel a = false := by
  induction fuel generalizing a best with
  | zero => exact Act.confined_raise (.inr ⟨rfl, rfl⟩)
  | succ fuel ih =>
    rw [trials]
    refine Act.Confined.ite (fun hle => ?_) fun _ => ?_
    · have hshort : ∀ best : Option (Trial α n), (if a * s.params.reduction < a then
          s.trials fuel (a * s.params.reduction) best else Act.raise .endless).Confined I fun e =>
            e.kind = .convergence ∨ e = .endless ∧ s.params.descends (fuel + 1) a = false := by
        intro best
        refine Act.Confined.ite (fun hlt => (ih _ best).imp fun e he => ?_) fun hlt => ?_
        · refine he.imp_right fun h => ⟨h.1, ?_⟩
          rw [Params.descends, if_pos hle, h.2, Bool.and_false]
        · refine Act.confined_raise (.inr ⟨rfl, ?_⟩)
          rw [Params.descends, if_pos hle, decide_eq_false hlt, Bool.false_and]
      have htrial : (s.trial a).Confined I fun e =>
          e.kind = .convergence ∨ e = .endless ∧ s.params.descends (fuel + 1) a = false :=
        ((hr _).imp fun _ h => h.elim).bind fun r => Act.confined_pure _
      refine htrial.bind fun t => Act.Confined.ite (fun _ => ?_) fun _ =>
        Act.Confined.ite (fun _ => ?_) fun _ => hshort _
      · exact (Act.confined_log _).bind fun _ => hshort best
      · exact (Act.confined_log _).bind fun _ => Act.confined_pure t
    · cases best with
      | none => exact Act.confined_raise (.inl rfl)
      | some t => exact (Act.confined_log _).bind fun _ => Act.confined_pure t

/-- A search raises for want of progress, or because its settings cannot be used. -/
theorem confined_search {prm : Params α} {residual : Vec α n → Act α σ (Vec α n)}
    (hr : ∀ x, (residual x).Confined I fun _ => False) (norm : Norm α) (start delta : Vec α n)
    (current : α) : (search prm residual norm start delta current).Confined I fun e =>
      e.kind = .convergence ∨ prm.Unusable e := by
  refine Act.Confined.bind ?_ fun delta => (Search.confined_trials hr _ _ none).imp fun e he => ?_
  · obtain ⟨e, he, hraise⟩ | ⟨delta', hret⟩ := capped_cases prm delta (σ := σ)
    · rw [hraise]
      exact Act.confined_raise (.inr (.cap he))
    · intro t ht
      rw [(hret t).wp_iff]
      exact ht
  · refine he.imp_right fun h => ?_
    rw [h.1]
    exact .lengths h.2

end LineSearch

namespace Iteration

def Poses (P : Problem α n) (it : Iteration α n σ) : Prop := it.problem = P

variable {P : Problem α n} {E : Fault α → Prop}

omit [Scalar α] in
theorem confined_counting {x : Act α Stats β} (hx : x.Confined Free E) :
    (counting x : Act α (Iteration α n σ) β).Confined (Poses P) E :=
  hx.zoom (fun _ _ => trivial) fun _ _ h _ => h

theorem confined_evaluate (hq : P.Quiet) (x : Vec α n) :
    (evaluate x : Act α (Iteration α n σ) (Vec α n)).Confined (Poses P) E := by
  refine Act.Confined.bind (fun _ h => h) fun _ => Act.confined_read_bind fun it h => ?_
  obtain ⟨r, hr⟩ := hq.residual x
  rw [h, hr]
  exact Act.confined_pure r

omit [Scalar α] in
theorem confined_refresh (hq : P.Quiet) :
    (refresh : Act α (Iteration α n σ) Unit).Confined (Poses P) E := by
  refine Act.Confined.bind (fun _ h => h) fun _ => Act.confined_read_bind fun it h => ?_
  refine Act.Confined.bind (fun _ h => h) fun _ => ?_
  rw [h, hq.residualInto]
  exact Act.confined_pure ()

omit [Scalar α] in
theorem confined_moveTo (hq : P.Quiet) (x : Vec α n) :
    (moveTo x : Act α (Iteration α n σ) Unit).Confined (Poses P) E :=
  Act.Confined.bind (fun _ h => h) fun _ => confined_refresh hq

omit [Scalar α] in
theorem confined_terminate (name : String) (norm : Norm α) (code : ReturnCode) :
    (terminate name norm code : Act α (Iteration α n σ) Unit).Confined (Poses P) E := by
  intro it h
  rw [wp_terminate]
  exact h

end Iteration

open Iteration

namespace Newton

variable {search : Option (LineSearch.Params α)} {l : Linearization α} {o : Options α}
  {P : Problem α n} {y : Iteration α n Unit}

variable (l y) in
def Trips (e : Fault α) : Prop :=
  e = .nonFiniteSystem ∧ ∃ J s,
    (Jacobian.build l.concrete y.problem l.differencing y.u y.fu).Returns y.stats J s ∧
      l.solver.Overrun J (-y.fu)

def Blocked (search : Option (LineSearch.Params α)) (e : Fault α) : Prop :=
  ∃ prm, search = some prm ∧ prm.Unusable e

theorem confined_follow (hq : P.Quiet) (delta : Vec α n) :
    (follow search o delta).Confined (Poses P) (Blocked search) := by
  refine Act.confined_read_bind fun it h => ?_
  cases search with
  | none => exact confined_moveTo hq _
  | some prm =>
    have hsearched : (searched o prm delta).Confined (Poses P) fun e =>
        e.kind = .convergence ∨ prm.Unusable e := Act.confined_read_bind fun it _ =>
      LineSearch.confined_search (fun x => confined_evaluate hq x) _ _ _ _
    refine hsearched.attempt_bind (fun t => fun _ h => h) fun e he => ?_
    refine Act.Confined.ite (fun _ => (Act.confined_log _).bind fun _ =>
      confined_terminate _ _ _) fun hk => Act.confined_raise ?_
    exact ⟨prm, rfl, he.resolve_left hk⟩

/-- A step raises what its settings call for, or its linear solve was asked for too much. -/
theorem wp_advance_confined (hq : y.problem.Quiet) (hl : l.preconditioner = none) :
    (advance search l o).wp (fun _ _ => True) (fun e _ => Trips l y e ∨
      l.differencing.Unusable y.problem.system e ∨ Blocked search e) y := by
  have hquit : (quit (n := n) search o .failure).Confined (Poses y.problem) fun e =>
      Trips l y e ∨ l.differencing.Unusable y.problem.system e ∨ Blocked search e :=
    confined_terminate _ _ _
  rw [advance, Act.wp_bind, Act.wp_read, Act.wp_bind, counting, Act.wp_zoom]
  refine (Jacobian.wp_build_confined hq l.concrete y.stats).returning.mono (fun J s hJ => ?_)
    fun e _ he => .inr (.inl he)
  obtain ⟨hJ, hproduct⟩ := hJ
  have hsolve := LinearSolver.confined_solve (s := l.solver) hl hproduct (-y.fu) y.u.toList
    y.problem.parameter
  have hy : Poses y.problem { y with stats := s } := rfl
  -- Behind the solve, only the problem matters.
  refine ((confined_counting hsolve).attempt_bind (fun delta => ?_) (fun e he => ?_) _ hy).mono
    (fun _ _ _ => trivial) fun _ _ h => h.1
  · exact Act.Confined.ite (fun _ => (confined_follow hq delta).imp fun _ h => .inr (.inr h))
      fun _ => hquit
  · refine Act.Confined.ite (fun _ => (Act.confined_log _).bind fun _ => hquit) fun hk => ?_
    obtain hunusable | ⟨rfl, hoverrun⟩ := he.resolve_left hk
    · exact Act.confined_raise (.inr (.inl hunusable))
    · exact Act.confined_raise (.inl ⟨rfl, J, s, hJ, hoverrun⟩)

/-- A linear solve that is asked for too much is not caught. -/
theorem Trips.raises {e : Fault α} (h : Trips l y e) :
    ((advance search l o).run y).result = .error e := by
  obtain ⟨rfl, J, s, hJ, hoverrun⟩ := h
  have hs := hoverrun.raises y.u.toList y.problem.parameter s
  rw [Act.raises_iff, advance, Act.wp_bind, Act.wp_read, Act.wp_bind, counting, Act.wp_zoom,
    hJ.wp_iff, Act.wp_bind, Act.wp_attempt, counting, Act.wp_zoom]
  simp only [Act.wp, hs]
  rfl

end Newton

namespace Secant

variable {ε : Type} {P : Problem α n} {E : Fault α → Prop}

omit [Scalar α] in
theorem confined_registerReset (plan : Plan α ε) :
    (registerReset plan : Act α (Iteration α n (Memory ε)) Bool).Confined (Poses P) E := by
  refine Act.Confined.bind (fun _ h => h) fun _ => Act.confined_read_bind fun it _ => ?_
  refine Act.Confined.ite (fun _ => ?_) fun _ => ?_
  · exact (confined_terminate _ _ _).bind fun _ => Act.confined_pure _
  · exact (Act.confined_log _).bind fun _ => Act.Confined.bind (fun _ h => h) fun _ =>
      Act.confined_pure _

theorem confined_follow (hq : P.Quiet) (plan : Plan α ε) (delta : Vec α n)
    (updated : ε → Vec α n → Vec α n → Option ε) :
    (follow plan delta updated).Confined (Poses P) E := by
  have hreset : (discard (registerReset plan) :
      Act α (Iteration α n (Memory ε)) PUnit).Confined (Poses P) E :=
    (confined_registerReset plan).bind fun _ => Act.confined_pure _
  refine Act.confined_read_bind fun before _ => Act.Confined.ite (fun _ => ?_) fun _ => hreset
  refine (confined_moveTo hq _).bind fun _ => Act.confined_read_bind fun _ _ => ?_
  split
  · exact fun _ h => h
  · exact hreset

end Secant

theorem Klement.confined_advance {P : Problem α n} {E : Fault α → Prop} (hq : P.Quiet)
    (limit : Nat) (o : Options α) : (advance (n := n) limit o).Confined (Poses P) E := by
  have hpropose : (propose (n := n) limit o).Confined (Poses P) E :=
    Act.confined_read_bind fun _ _ => Secant.confined_follow hq _ _ _
  refine Act.confined_read_bind fun it _ => Act.Confined.ite (fun _ => ?_) fun _ => hpropose
  refine (Secant.confined_registerReset _).bind fun goOn => ?_
  exact Act.Confined.ite (fun _ => hpropose) fun _ => Act.confined_pure _

theorem Broyden.confined_advance {P : Problem α n} {E : Fault α → Prop} (hq : P.Quiet)
    (limit : Nat) (o : Options α) : (advance (n := n) limit o).Confined (Poses P) E :=
  Act.confined_read_bind fun _ _ => Secant.confined_follow hq _ _ _

namespace TrustRegion

def Params.thresholds (prm : Params α) : List (Threshold α) :=
  [prm.stepThreshold, prm.shrinkThreshold, prm.expandThreshold]

inductive Params.Unusable (prm : Params α) : Fault α → Prop where
  | threshold (h : .unordered ∈ prm.thresholds) : Unusable prm .wrongType
  | factor {e : Fault α} (h : prm.expandFactor = .error e) : Unusable prm e

/-- Only a bound without order cannot be compared with a ratio. -/
theorem Params.unusable_of_error {prm : Params α} {t : Threshold α} (ht : t ∈ prm.thresholds)
    {rho : α} {e : Fault α} (h : t.exceededBy rho = .error e ∨ t.attainedBy rho = .error e ∨
      t.missedBy rho = .error e ∨ t.keptBy rho = .error e) : prm.Unusable e := by
  obtain ⟨rfl, rfl⟩ : t = .unordered ∧ e = .wrongType := by
    rcases h with h | h | h | h <;> cases t <;> cases h <;> exact ⟨rfl, rfl⟩
  exact .threshold ht

variable {scheme : Scheme} {prm : Params α} {l : Linearization α} {o : Options α}
  {P : Problem α n} {y : Iteration α n (Memory α n)} {rho size : α}

section Rules

omit [Scalar α] in
theorem step_mem : prm.stepThreshold ∈ prm.thresholds := by simp [Params.thresholds]

omit [Scalar α] in
theorem shrink_mem : prm.shrinkThreshold ∈ prm.thresholds := by simp [Params.thresholds]

omit [Scalar α] in
theorem expand_mem : prm.expandThreshold ∈ prm.thresholds := by simp [Params.thresholds]

theorem confined_missed : (Act.ofExcept (prm.shrinkThreshold.missedBy rho) :
    Act α σ Bool).Confined Free prm.Unusable :=
  Act.confined_ofExcept fun _ h => prm.unusable_of_error shrink_mem (.inr (.inr (.inl h)))

theorem confined_exceeded : (Act.ofExcept (prm.expandThreshold.exceededBy rho) :
    Act α σ Bool).Confined Free prm.Unusable :=
  Act.confined_ofExcept fun _ h => prm.unusable_of_error expand_mem (.inl h)

theorem confined_attained : (Act.ofExcept (prm.expandThreshold.attainedBy rho) :
    Act α σ Bool).Confined Free prm.Unusable :=
  Act.confined_ofExcept fun _ h => prm.unusable_of_error expand_mem (.inr (.inl h))

theorem confined_accepts : (accepts prm rho : Act α (Memory α n) Bool).Confined Free prm.Unusable :=
  Act.confined_ofExcept fun _ h => prm.unusable_of_error step_mem (.inl h)

omit [Scalar α] in
theorem confined_change {E : Fault α → Prop} (f : Memory α n → Memory α n) :
    (Act.update f).Confined Free E := fun _ h => h

omit [Scalar α] in
theorem confined_expand (f : α → Memory α n → Memory α n) :
    (expand prm f).Confined Free prm.Unusable :=
  (Act.confined_ofExcept fun _ h => .factor h).bind fun _ => confined_change _

theorem confined_updateSimple :
    (updateSimple prm rho size : Act α (Memory α n) Bool).Confined Free prm.Unusable := by
  have hexpand : (expandSimple (n := n) prm rho size).Confined Free prm.Unusable :=
    confined_exceeded.bind fun good => Act.confined_read_bind fun m _ =>
      Act.Confined.ite (fun _ => confined_expand _) fun _ => Act.confined_pure _
  have hend : (do
      let accepted ← accepts prm rho
      if accepted then expandSimple prm rho size
      pure accepted : Act α (Memory α n) Bool).Confined Free prm.Unusable :=
    confined_accepts.bind fun accepted => Act.Confined.ite
      (fun _ => hexpand.bind fun _ => Act.confined_pure _) fun _ => Act.confined_pure _
  refine confined_missed.bind fun missed => Act.Confined.ite (fun _ => ?_) fun _ => ?_
  · exact (confined_change _).bind fun _ => hend
  · exact (confined_change _).bind fun _ => hend

theorem confined_updateNlsolve :
    (updateNlsolve prm rho size : Act α (Memory α n) Bool).Confined Free prm.Unusable := by
  have hexpand : (expandNlsolve (n := n) prm rho size).Confined Free prm.Unusable :=
    confined_attained.bind fun good => Act.Confined.ite (fun _ => confined_expand _) fun _ =>
      Act.Confined.ite (fun _ => confined_expand _) fun _ => Act.confined_pure _
  refine confined_missed.bind fun missed => Act.Confined.ite (fun _ => ?_) fun _ => ?_
  · exact (confined_change _).bind fun _ => confined_accepts
  · exact (confined_change _).bind fun _ => hexpand.bind fun _ => confined_accepts

theorem confined_adjustBastin {ratio : α} :
    (adjustBastin prm ratio size : Act α (Memory α n) Unit).Confined Free prm.Unusable := by
  refine confined_attained.bind fun good => ?_
  refine Act.Confined.ite (fun _ => confined_expand _) fun _ => ?_
  exact confined_missed.bind fun missed => Act.Confined.ite (fun _ => confined_change _) fun _ =>
    Act.confined_pure _

theorem confined_updateFan {fu : Vec α n} :
    (updateFan prm rho fu : Act α (Memory α n) Bool).Confined Free prm.Unusable := by
  have hscale : (scaleFan (n := n) prm rho).Confined Free prm.Unusable := by
    refine confined_missed.bind fun missed => ?_
    refine Act.Confined.ite (fun _ => confined_change _) fun _ => ?_
    refine (confined_change _).bind fun _ => confined_exceeded.bind fun good => ?_
    exact Act.Confined.ite (fun _ => confined_expand _) fun _ => Act.confined_pure _
  refine hscale.bind fun _ => confined_accepts.bind fun accepted => ?_
  exact Act.Confined.ite (fun _ => (confined_change _).bind fun _ => Act.confined_pure _)
    fun _ => Act.confined_pure _

end Rules

variable (prm l) in
def Blocked (P : Problem α n) (e : Fault α) : Prop :=
  l.differencing.Unusable P.system e ∨ prm.Unusable e

omit [Scalar α] in
theorem confined_remembering {x : Act α (Memory α n) β} {E : Fault α → Prop}
    (hx : x.Confined Free E) : (remembering x).Confined (Poses P) E :=
  hx.zoom (fun _ _ => trivial) fun _ _ h _ => h

theorem confined_jacobian (hq : P.Quiet) :
    (jacobian l).Confined (Poses P) (Blocked prm l P) := by
  refine Act.confined_read_bind fun it h => ?_
  split
  · exact Act.confined_pure _
  · rw [h]
    refine ((confined_counting (Jacobian.confined_dense hq)).imp fun _ h => .inl h).bind fun J => ?_
    exact Act.Confined.bind (fun _ h => h) fun _ => Act.confined_pure _

theorem confined_updateBastin (hq : P.Quiet) (s trial fuTrial : Vec α n) :
    (updateBastin prm l rho s trial fuTrial).Confined (Poses P) (Blocked prm l P) := by
  have hrule : ∀ {x : Act α (Memory α n) Unit}, x.Confined Free prm.Unusable →
      (remembering x).Confined (Poses P) (Blocked prm l P) := fun hx =>
    (confined_remembering hx).imp fun _ h => .inr h
  refine Act.Confined.bind (Act.confined_ofExcept fun e h =>
    .inr (prm.unusable_of_error step_mem (.inr (.inr (.inr h))))) fun kept =>
    Act.Confined.ite (fun _ => ?_) fun _ => ?_
  · exact (hrule (confined_change _)).bind fun _ => Act.confined_pure _
  · refine (hrule (confined_change _)).bind fun _ => Act.confined_read_bind fun before _ => ?_
    refine Act.Confined.bind (fun _ h => h) fun _ => Act.confined_read_bind fun it h => ?_
    rw [h]
    refine ((confined_counting (Jacobian.confined_dense hq)).imp fun _ h => .inl h).bind fun J => ?_
    exact (hrule ((confined_change _).bind fun _ => confined_adjustBastin)).bind fun _ =>
      Act.confined_pure _

theorem confined_update (hq : P.Quiet) (s trial fuTrial : Vec α n) :
    (update scheme prm l rho s trial fuTrial).Confined (Poses P) (Blocked prm l P) := by
  cases scheme with
  | simple => exact (confined_remembering confined_updateSimple).imp fun _ h => .inr h
  | nlsolve => exact (confined_remembering confined_updateNlsolve).imp fun _ h => .inr h
  | bastin => exact confined_updateBastin hq s trial fuTrial
  | fan =>
    exact Act.confined_read_bind fun it _ =>
      (confined_remembering confined_updateFan).imp fun _ h => .inr h

theorem confined_attemptStep (hq : P.Quiet) (J : Mat α n n) (s : Vec α n) :
    (attemptStep scheme prm l o J s).Confined (Poses P) (Blocked prm l P) := by
  have hend : (do
      let it ← Act.read
      if exhausted prm it.memory then
        Act.log (.shrankRepeatedly (name scheme) it.memory.shrinks)
        Iteration.terminate (name scheme) o.norm .shrinkThresholdExceeded :
      Act α (Iteration α n (Memory α n)) Unit).Confined (Poses P) (Blocked prm l P) :=
    Act.confined_read_bind fun it _ => Act.Confined.ite
      (fun _ => (Act.confined_log _).bind fun _ => confined_terminate _ _ _)
      fun _ => Act.confined_pure _
  refine Act.confined_read_bind fun it _ => (confined_evaluate hq _).bind fun fuTrial => ?_
  refine (confined_update hq s _ fuTrial).bind fun accepted => ?_
  refine Act.Confined.ite (fun _ => ?_) fun _ => hend
  exact Act.Confined.bind (fun _ h => h) fun _ =>
    (confined_remembering (confined_change _)).bind fun _ => hend

variable (l y) in
/-- The linear solve for the step at an iterate is asked for too much, or the step ends on the
sphere of a radius that is too large to be squared. -/
inductive Trips : Fault α → Prop where
  | overrun {J : Mat α n n} {z : Iteration α n (Memory α n)} (hJ : (jacobian l).Returns y J z)
    (h : l.solver.Overrun (.dense J) (-y.fu)) : Trips .nonFiniteSystem
  | beyond {J : Mat α n n} {newton : Option (Vec α n)} {z z' : Iteration α n (Memory α n)}
    (hJ : (jacobian l).Returns y J z) (hn : (newtonStep l J).Returns z newton z')
    (hb : bends J y.fu y.memory.radius newton = true) (hr : tooLarge y.memory.radius = true) :
    Trips .tooLarge

/-- The solve for the Newton step raises only if least squares are asked for too much. -/
theorem wp_newtonStep_confined (hl : l.preconditioner = none) (J : Mat α n n) :
    (newtonStep l J).wp (fun _ z => z.problem = y.problem)
      (fun e _ => e = .nonFiniteSystem ∧ l.solver.Overrun (.dense J) (-y.fu)) y := by
  have hproduct : ∀ v, ((Linearized.dense J).product v).Confined Free fun _ => False :=
    fun v => Act.confined_pure _
  have hsolve := LinearSolver.confined_solve (s := l.solver) hl hproduct (-y.fu) y.u.toList
    y.problem.parameter
  have hy : Poses y.problem y := rfl
  rw [newtonStep, Act.wp_bind, Act.wp_read]
  refine ((confined_counting hsolve).attempt_bind (fun s => ?_) (fun e he => ?_) y hy).mono
    (fun _ _ h => h) fun _ _ h => h.1
  · exact Act.confined_pure _
  · refine Act.Confined.ite (fun _ => Act.confined_pure _) fun hk => Act.confined_raise ?_
    exact (he.resolve_left hk).resolve_left id

/-- Nor is such a solve caught where the Newton step is asked for. -/
theorem raises_newtonStep {J : Mat α n n} (h : l.solver.Overrun (.dense J) (-y.fu)) :
    ((newtonStep l J).run y).result = .error .nonFiniteSystem := by
  have hs := h.raises y.u.toList y.problem.parameter y.stats
  rw [Act.raises_iff, newtonStep, Act.wp_bind, Act.wp_read, Act.wp_bind, Act.wp_attempt, counting,
    Act.wp_zoom]
  simp only [Act.wp, hs]
  rfl

/-- A step raises what its settings call for, or it trips. -/
theorem wp_advance_confined (hq : y.problem.Quiet) (hl : l.preconditioner = none) :
    (advance scheme prm l o).wp (fun _ _ => True)
      (fun e _ => Trips l y e ∨ Blocked prm l y.problem e) y := by
  have hpoised : Poised y y := ⟨.refl y, rfl, rfl⟩
  rw [advance, Act.wp_bind]
  refine (confined_jacobian hq y rfl).returning.mono (fun J z hJ => ?_) fun _ _ h => .inr h.1
  obtain ⟨hJ, -⟩ := hJ
  have hz : Poised y z := hJ.2 ▸ keeps_jacobian_poised y hpoised
  rw [Act.wp_bind]
  refine (wp_newtonStep_confined hl J).returning.mono (fun newton z' hn => ?_) fun e _ he => ?_
  · obtain ⟨hn, -⟩ := hn
    have hz' : Poised y z' := hn.2 ▸ keeps_newtonStep_poised J z hz
    rw [Act.wp_bind, Act.wp_read, hz'.fu, hz'.radius, Act.wp_bind]
    refine wp_doglegStep ?_ fun hb hr => .inl (.beyond hJ hn hb hr)
    split
    · exact (confined_attemptStep hq J _ z' hz'.problem).mono (fun _ _ _ => trivial)
        fun _ _ h => .inr h.1
    · rw [wp_terminate]
      trivial
  · obtain ⟨rfl, hoverrun⟩ := he
    rw [hz.fu] at hoverrun
    exact .inl (.overrun hJ hoverrun)

/-- A step that trips is not caught. -/
theorem Trips.raises {e : Fault α} (h : Trips l y e) :
    ((advance scheme prm l o).run y).result = .error e := by
  have hpoised : Poised y y := ⟨.refl y, rfl, rfl⟩
  rw [Act.raises_iff, advance, Act.wp_bind]
  cases h with
  | @overrun J z hJ h =>
    have hz : Poised y z := hJ.2 ▸ keeps_jacobian_poised y hpoised
    rw [← hz.fu] at h
    rw [hJ.wp_iff, Act.wp_bind]
    simp only [Act.wp, raises_newtonStep h]
  | @beyond J newton z z' hJ hn hb hr =>
    have hz : Poised y z := hJ.2 ▸ keeps_jacobian_poised y hpoised
    have hz' : Poised y z' := hn.2 ▸ keeps_newtonStep_poised J z hz
    rw [hJ.wp_iff, Act.wp_bind, hn.wp_iff, Act.wp_bind, Act.wp_read, hz'.fu, hz'.radius,
      doglegStep, hb, hr]
    exact rfl

end TrustRegion

namespace Algorithm

def Plain : Algorithm α → Prop
  | .newton _ l | .trustRegion _ _ l => l.preconditioner = none
  | _ => True

/-- The step at an iterate trips; those of the secant methods never do. -/
def Trips : (a : Algorithm α) → Iteration α n (a.Memory n) → Fault α → Prop
  | .newton _ l, y => Newton.Trips l y
  | .trustRegion _ _ l, y => TrustRegion.Trips l y
  | _, _ => fun _ => False

/-- A setting cannot be used, which is noticed when it is needed. -/
def Unusable (S : System α n) : Algorithm α → Fault α → Prop
  | .newton search l, e => l.differencing.Unusable S e ∨ ∃ prm, search = some prm ∧ prm.Unusable e
  | .trustRegion _ prm l, e => l.differencing.Unusable S e ∨ prm.Unusable e
  | _, _ => False

variable {a : Algorithm α} {o : Options α} {y : Iteration α n (a.Memory n)} {e : Fault α}

/-- Where the functions of the system return, a step trips or meets a setting that cannot be used,
or does not raise. -/
theorem advance_raises (ha : a.BuiltIn) (hplain : a.Plain) (hq : y.problem.Quiet)
    (h : ((a.method o n).advance.run y).result = .error e) :
    a.Trips y e ∨ a.Unusable y.problem.system e := by
  cases a with
  | newton search l => exact (Newton.wp_advance_confined hq hplain).of_error h
  | trustRegion scheme prm l => exact (TrustRegion.wp_advance_confined hq hplain).of_error h
  | klement limit =>
    exact .inl ((Klement.confined_advance (E := fun _ => False) hq limit o y rfl).of_error h).1
  | broyden limit =>
    exact .inl ((Broyden.confined_advance (E := fun _ => False) hq limit o y rfl).of_error h).1
  | replay script => exact ha.elim

theorem Trips.raises (h : a.Trips y e) : ((a.method o n).advance.run y).result = .error e := by
  cases a with
  | newton search l => exact Newton.Trips.raises h
  | trustRegion scheme prm l => exact TrustRegion.Trips.raises h
  | klement limit => exact h.elim
  | broyden limit => exact h.elim
  | replay script => exact h.elim

end Algorithm

end Rootfinder
