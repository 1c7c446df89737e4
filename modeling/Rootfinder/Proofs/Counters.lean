import Rootfinder.Linear.Solver
import Rootfinder.Proofs.Act

namespace Rootfinder

variable {α β : Type} {n : Nat} {k : Int}

def Stats.At (k : Int) (s : Stats) : Prop := s.nsteps = k

def Linearized.Steady [Scalar α] (A : Linearized α n) : Prop :=
  ∀ k v, (A.product v).Keeps (Stats.At k)

theorem keeps_countJacobian :
    (Act.update Stats.countJacobian : Act α Stats Unit).Keeps (Stats.At k) :=
  Act.keeps_update fun _ h => h

theorem keeps_countFactor :
    (Act.update Stats.countFactor : Act α Stats Unit).Keeps (Stats.At k) :=
  Act.keeps_update fun _ h => h

theorem keeps_countSolve :
    (Act.update Stats.countSolve : Act α Stats Unit).Keeps (Stats.At k) :=
  Act.keeps_update fun _ h => h

theorem Inquiry.keeps_run {P : Stats → Prop} {product : Vec α n → Act α Stats (Vec α n)}
    (hp : ∀ v, (product v).Keeps P) (q : Inquiry α n β) : (q.run product).Keeps P := by
  induction q with
  | done b => exact Act.keeps_pure b
  | ask v next ih => exact (hp v).bind ih

variable [Scalar α]

namespace Jacobian

variable (prob : Problem α n) (d : Differencing α) (u fu : Vec α n)

section Evaluations

-- A fact about counters that evaluations of the residual do not change.
variable {Q : Stats → Prop} (hQ : ∀ s, Q s → Q s.countResidual)

include hQ

theorem keeps_probe : (probe prob u).Keeps Q :=
  (Act.keeps_ofExcept _).bind fun _ => (Act.keeps_update hQ).bind fun _ => Act.keeps_pure _

theorem keeps_directional (v : Vec α n) : (directional prob d u fu v).Keeps Q := by
  unfold directional quotient
  refine Act.Keeps.ite (Act.keeps_pure _) ?_
  refine (Act.keeps_ofExcept _).bind fun step => (Act.keeps_ofExcept _).bind fun v => ?_
  refine (keeps_probe _ _ hQ).bind fun ahead => Act.Keeps.ite ?_ (Act.keeps_pure _)
  exact (keeps_probe _ _ hQ).bind fun behind => Act.keeps_pure _

theorem keeps_differences : (differences prob d u fu).Keeps Q := by
  unfold differences
  generalize (Mat.zero n n : Mat α n n) = J
  induction List.finRange n generalizing J with
  | nil => exact Act.keeps_pure _
  | cons j js ih =>
    rw [List.foldlM_cons]
    refine Act.Keeps.bind ?_ ih
    exact (keeps_directional prob d u fu hQ _).bind fun c => Act.keeps_pure _

theorem keeps_matrix : (matrix prob d u fu).Keeps Q :=
  Act.Keeps.ite (Act.keeps_ofExcept _) (keeps_differences prob d u fu hQ)

end Evaluations

theorem keeps_dense : (dense prob d u fu).Keeps (Stats.At k) :=
  keeps_countJacobian.bind fun _ => keeps_matrix prob d u fu fun _ h => h

theorem steady_dense (J : Mat α n n) : (Linearized.dense J).Steady :=
  fun _ _ => Act.keeps_pure _

/-- The products of a Jacobian leave the number of steps alone in either representation. -/
theorem wp_build (concrete : Bool) {s : Stats} (h : s.At k) :
    (build concrete prob d u fu).wp (fun J s' => s'.At k ∧ J.Steady) (fun _ => Stats.At k) s := by
  unfold build
  rw [Act.wp_bind]
  refine (keeps_countJacobian.wp h).mono (fun _ s' h' => ?_) (fun _ _ h' => h')
  split
  · rw [Act.wp_bind]
    refine ((keeps_matrix prob d u fu fun _ h => h).wp h').mono (fun J s'' h'' => ?_)
      (fun _ _ h' => h')
    exact ⟨h'', steady_dense J⟩
  · unfold operator
    split
    · rw [Act.wp_bind]
      refine ((Act.keeps_ofExcept _).wp h').mono (fun J s'' h'' => ?_) (fun _ _ h' => h')
      exact ⟨h'', fun k v => Act.keeps_pure _⟩
    · exact ⟨h', fun k v => keeps_directional prob d u fu (fun _ h => h) v⟩

end Jacobian

namespace LinearSolver

variable (s : LinearSolver α)

theorem keeps_factorize {m : Nat} (A : Mat α m n) : (s.factorize A).Keeps (Stats.At k) :=
  Act.Keeps.ite (Act.keeps_raise _) <|
    keeps_countFactor.bind fun _ => Act.Keeps.ite (Act.keeps_raise _) (Act.keeps_pure _)

theorem keeps_eliminate (A : Mat α n n) (b : Vec α n) : (s.eliminate A b).Keeps (Stats.At k) :=
  (s.keeps_factorize A).bind fun _ => Act.keeps_pure _

theorem keeps_leastSquares {P : Stats → Prop} {m : Nat} (A : Mat α m n) (b : Vec α m) :
    (s.leastSquares A b).Keeps P := by
  refine Act.Keeps.ite ?_ (Act.keeps_raise _)
  split
  · exact Act.keeps_pure _
  · exact Act.keeps_raise _

omit [Scalar α] in
theorem keeps_answer {P : Stats → Prop} (x : Vec α n) (info : Int) : (s.answer x info).Keeps P :=
  Act.Keeps.ite (Act.keeps_raise _) <|
    Act.Keeps.ite ((Act.keeps_log _).bind fun _ => Act.keeps_pure _) (Act.keeps_pure _)

theorem keeps_krylov {P : Stats → Prop} {A : Linearized α n} (hA : ∀ v, (A.product v).Keeps P)
    (b : Vec α n) (u : List α) (p : Parameter α) : (s.krylov A b u p).Keeps P := by
  unfold krylov
  split
  · exact (Act.keeps_pure _).bind fun M =>
      (Inquiry.keeps_run hA _).bind fun r => s.keeps_answer r.1 r.2
  · exact (Act.keeps_ofExcept _).bind fun M =>
      (Inquiry.keeps_run hA _).bind fun r => s.keeps_answer r.1 r.2

theorem keeps_solve {A : Linearized α n} (hA : A.Steady) (b : Vec α n)
    (u : List α) (p : Parameter α) : (s.solve A b u p).Keeps (Stats.At k) := by
  unfold solve
  refine keeps_countSolve.bind fun _ => ?_
  split
  · exact s.keeps_krylov (hA k) b u p
  · exact Act.keeps_raise _
  · exact s.keeps_leastSquares _ _
  · exact s.keeps_eliminate _ _

end LinearSolver

end Rootfinder
