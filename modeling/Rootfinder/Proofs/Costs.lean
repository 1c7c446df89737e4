import Rootfinder.Proofs.Confined

namespace Rootfinder

variable {α β γ σ : Type} {n : Nat}

namespace Act

def Oblivious (x : Act α σ β) : Prop := ∀ s s', (x.run s).result = (x.run s').result

section Rules

variable {x : Act α σ β}

theorem oblivious_pure (b : β) : (pure b : Act α σ β).Oblivious := fun _ _ => rfl

theorem oblivious_update (f : σ → σ) : (update f : Act α σ Unit).Oblivious := fun _ _ => rfl

theorem oblivious_ofExcept (r : Except (Fault α) β) : (ofExcept r : Act α σ β).Oblivious := by
  cases r <;> exact fun _ _ => rfl

theorem Oblivious.bind {f : β → Act α σ γ} (hx : x.Oblivious) (hf : ∀ b, (f b).Oblivious) :
    (x >>= f).Oblivious := by
  intro s s'
  have hr := hx s s'
  rcases h : x.run s with ⟨r, t, w⟩
  rcases h' : x.run s' with ⟨r', t', w'⟩
  rw [h, h'] at hr
  obtain rfl : r = r' := hr
  cases r with
  | error e => rw [run_bind_error h, run_bind_error h']
  | ok b =>
    rw [run_bind_ok h, run_bind_ok h']
    exact hf b t t'

theorem Oblivious.ite {c : Prop} [Decidable c] {y : Act α σ β} (hx : x.Oblivious)
    (hy : y.Oblivious) : (if c then x else y).Oblivious := by
  split
  · exact hx
  · exact hy

end Rules

end Act

namespace Stats

def countDense (s : Stats) (evaluations : Nat) : Stats :=
  { s with nf := s.nf + evaluations, njacs := s.njacs + 1 }

def countLinear (s : Stats) (factors : Nat) : Stats :=
  { s with nsolve := s.nsolve + 1, nfactors := s.nfactors + factors }

end Stats

variable [Scalar α]

namespace Jacobian

variable (P : Problem α n) (d : Differencing α) (u fu : Vec α n)

theorem oblivious_probe : (probe P u).Oblivious :=
  (Act.oblivious_ofExcept _).bind fun _ => (Act.oblivious_update _).bind fun _ =>
    Act.oblivious_pure _

theorem oblivious_directional (v : Vec α n) : (directional P d u fu v).Oblivious := by
  refine Act.Oblivious.ite (Act.oblivious_pure _) ?_
  refine (Act.oblivious_ofExcept _).bind fun step => (Act.oblivious_ofExcept _).bind fun v => ?_
  refine (oblivious_probe _ _).bind fun ahead => Act.Oblivious.ite ?_ (Act.oblivious_pure _)
  exact (oblivious_probe _ _).bind fun behind => Act.oblivious_pure _

theorem oblivious_differences : (differences P d u fu).Oblivious := by
  unfold differences
  generalize (Mat.zero n n : Mat α n n) = J
  induction List.finRange n generalizing J with
  | nil => exact Act.oblivious_pure _
  | cons j js ih =>
    rw [List.foldlM_cons]
    exact ((oblivious_directional P d u fu _).bind fun c => Act.oblivious_pure _).bind ih

theorem oblivious_dense : (dense P d u fu).Oblivious :=
  (Act.oblivious_update _).bind fun _ =>
    Act.Oblivious.ite (Act.oblivious_ofExcept _) (oblivious_differences P d u fu)

/-- A matrix is the Jacobian at a point with its residual, whatever was counted before. -/
def Yields (J : Mat α n n) : Prop := ∀ s, ((dense P d u fu).run s).result = .ok J

variable {P d u fu}

theorem yields_of_returns {s s' : Stats} {J : Mat α n n} (h : (dense P d u fu).Returns s J s') :
    Yields P d u fu J := fun t => (oblivious_dense P d u fu t s).trans h.1

section Quiet

/-- Where the step of the differences cannot be used, they do not depend on the problem. -/
theorem differences_of_unusable {e : Fault α} (hd : d.step = .error e) (P' : Problem α n)
    (u' fu' : Vec α n) :
    differences P d u fu = differences P' d u' fu' := by
  have hdirectional : ∀ v, directional P d u fu v = directional P' d u' fu' v := by
    intro v
    simp only [directional, quotient, hd]
    rfl
  simp only [differences, hdirectional]

/-- Where the functions of a system return, it has a Jacobian at every point or at none. -/
theorem Yields.elsewhere {J : Mat α n n} (h : Yields P d u fu J) (hq : P.Quiet)
    (u' fu' : Vec α n) : ∃ J', Yields P d u' fu' J' := by
  have hw : (dense P d u' fu').wp (fun _ _ => True) (fun _ _ => False) {} := by
    cases hJ : P.system.hasJacobian with
    | true =>
      refine (confined_dense hq {} trivial).mono (fun _ _ _ => trivial) fun e _ he => ?_
      rw [he.1.1] at hJ
      cases hJ
    | false =>
      cases hd : d.step with
      | ok step =>
        refine (confined_dense hq {} trivial).mono (fun _ _ _ => trivial) fun e _ he => ?_
        cases he.1.2.symm.trans hd
      | error e =>
        have hsame : dense P d u' fu' = dense P d u fu := by
          simp only [dense, matrix, differences_of_unusable hd P u fu, hJ, Bool.false_eq_true,
            if_false]
        have hok := h {}
        rw [hsame, Act.wp, hok]
        trivial
  obtain ⟨J', s', hret, -⟩ := hw.returns
  exact ⟨J', yields_of_returns hret⟩

end Quiet

section Price

/-- How often the residual is evaluated for a Jacobian. -/
def price (S : System α n) (d : Differencing α) : Nat :=
  if S.hasJacobian then 0 else if d.central then 2 * n else n

variable {s : Stats}

theorem wp_probe_price : (probe P u).wp (fun _ s' => s' = s.countResidual) (fun _ _ => True) s := by
  rw [probe, Act.wp_bind]
  cases P.residual u with
  | error e => trivial
  | ok r => exact rfl

variable (hunit : ∀ j : Fin n, ((Vec.unit j : Vec α n).euclid == 0.0) = false)

include hunit

/-- A direction costs an evaluation, and central differences a second one. -/
theorem wp_directional_price (j : Fin n) : (directional P d u fu (Vec.unit j)).wp
    (fun _ s' => s' = { s with nf := s.nf + (if d.central then 2 else 1) })
    (fun _ _ => True) s := by
  rw [directional, quotient, hunit j, if_neg Bool.false_ne_true, Act.wp_bind]
  cases d.step with
  | error e => trivial
  | ok step =>
    rw [Act.wp_ofExcept_ok, Act.wp_bind, Act.wp_ofExcept_ok, Act.wp_bind]
    refine wp_probe_price.mono (fun ahead s' hs => ?_) fun _ _ h => h
    subst hs
    split
    · rw [Act.wp_bind]
      refine wp_probe_price.mono (fun behind s' hs => ?_) fun _ _ h => h
      subst hs
      change Stats.mk s.nsteps (s.nf + 1 + 1) s.njacs s.nfactors s.nsolve = _
      rw [Int.add_assoc]
      rfl
    · rfl

theorem wp_differences_price : (differences P d u fu).wp
    (fun _ s' => s' = { s with nf := s.nf + n * (if d.central then 2 else 1) })
    (fun _ _ => True) s := by
  -- On the directions that are left, each of which costs the same.
  have hrest : ∀ (js : List (Fin n)) (J : Mat α n n) (s : Stats),
      (js.foldlM (fun (J : Mat α n n) j => do
        let c ← directional P d u fu (Vec.unit j)
        pure (J.setColumn j c)) J).wp
        (fun _ s' => s' = { s with nf := s.nf + js.length * (if d.central then 2 else 1) })
        (fun _ _ => True) s := by
    intro js
    induction js with
    | nil => simp
    | cons j js ih =>
      intro J s
      rw [List.foldlM_cons, Act.wp_bind, Act.wp_bind]
      refine (wp_directional_price hunit j).mono (fun c s' hs => ?_) fun _ _ h => h
      subst hs
      rw [Act.wp_pure]
      refine (ih _ _).mono (fun _ s'' hs => hs.trans ?_) fun _ _ h => h
      refine congrArg (fun k => { s with nf := k }) ?_
      dsimp only
      rw [List.length_cons, Int.natCast_add, Int.add_mul, Int.natCast_one, Int.one_mul]
      omega
  have h := hrest (List.finRange n) (Mat.zero n n) s
  rwa [List.length_finRange] at h

/-- A Jacobian costs its evaluations, and is counted once. -/
theorem wp_dense_price : (dense P d u fu).wp
    (fun _ s' => s' = s.countDense (price P.system d)) (fun _ _ => True) s := by
  rw [dense, Act.wp_bind, Act.wp_update, matrix, price]
  cases P.system.hasJacobian with
  | true =>
    rw [if_pos rfl, if_pos rfl]
    cases P.jacobian u with
    | error e => trivial
    | ok J => simp [Stats.countDense, Stats.countJacobian]
  | false =>
    rw [if_neg Bool.false_ne_true, if_neg Bool.false_ne_true]
    refine (wp_differences_price hunit).mono (fun _ s' hs => hs.trans ?_) fun _ _ h => h
    cases d.central <;> simp [Stats.countDense, Stats.countJacobian, Int.mul_comm]

end Price

/-- Whatever else is counted on the way to a Jacobian are evaluations. -/
theorem wp_dense_counted {s : Stats} : (dense P d u fu).wp
    (fun _ s' => { s' with nf := s.nf } = s.countJacobian)
    (fun _ s' => { s' with nf := s.nf } = s.countJacobian) s := by
  rw [dense, Act.wp_bind, Act.wp_update]
  exact (keeps_matrix P d u fu (Q := fun s' => { s' with nf := s.nf } = s.countJacobian)
    fun _ h => h).wp rfl

end Jacobian

namespace LinearSolver

def factors (s : LinearSolver α) (J : Mat α n n) : Nat :=
  if s.method = .lu ∧ J.allFinite = true then 1 else 0

theorem factors_le_one (s : LinearSolver α) (J : Mat α n n) : s.factors J ≤ 1 := by
  unfold factors
  split <;> decide

/-- A solve with a matrix is counted once, with its factorization, however it ends. -/
theorem solve_price (s : LinearSolver α) (J : Mat α n n) (b : Vec α n) (u : List α)
    (p : Parameter α) (t : Stats) :
    ((s.solve (.dense J) b u p).run t).state = t.countLinear (s.factors J) := by
  have hkeeps : ∀ {x : Act α Stats (Vec α n)}, x.Keeps (· = t.countSolve) →
      ((Act.update Stats.countSolve >>= fun _ => x).run t).state = t.countSolve :=
    fun hx => hx _ rfl
  obtain ⟨routines, method, preconditioner, rtol⟩ := s
  cases method with
  | gmres =>
    refine (hkeeps (keeps_krylov _ (fun v => ?_) b u p)).trans ?_
    · exact Act.keeps_pure _
    · simp [Stats.countLinear, Stats.countSolve, factors]
  | lstsq =>
    refine (hkeeps (keeps_leastSquares _ J b)).trans ?_
    simp [Stats.countLinear, Stats.countSolve, factors]
  | lu =>
    let s : LinearSolver α := ⟨routines, .lu, preconditioner, rtol⟩
    change ((Act.update Stats.countSolve >>= fun _ => s.eliminate J b).run t).state = _
    have heliminate : (s.eliminate J b).wp (fun _ t' => t' = t.countLinear (s.factors J))
        (fun _ t' => t' = t.countLinear (s.factors J)) t.countSolve := by
      rw [eliminate, factorize, factors]
      cases J.allFinite with
      | false =>
        rw [Act.wp_bind]
        simp [Stats.countLinear, Stats.countSolve]
      | true =>
        simp only [Bool.not_true, Bool.false_eq_true, if_false, Act.wp_bind, Act.wp_update]
        split <;> simp [s, Stats.countLinear, Stats.countSolve, Stats.countFactor]
    exact heliminate.outcome (P := fun _ t' => t' = t.countLinear _)

end LinearSolver

section Doubles

theorem foldl_zeros (k : Nat) :
    (List.ofFn fun _ : Fin k => (0.0 : Float)).foldl (· + ·) 1.0 = 1.0 := by
  have hone : (1.0 : Float) + 0.0 = 1.0 := by decide +kernel
  induction k with
  | zero => rfl
  | succ k ih => rw [List.ofFn_succ, List.foldl_cons, hone, ih]

theorem foldl_unit (j : Fin n) :
    (List.ofFn fun i => if i = j then (1.0 : Float) else 0.0).foldl (· + ·) 0.0 = 1.0 := by
  have hfirst : (0.0 : Float) + 1.0 = 1.0 := by decide +kernel
  have hzero : (0.0 : Float) + 0.0 = 0.0 := by decide +kernel
  induction n with
  | zero => exact j.elim0
  | succ n ih =>
    rw [List.ofFn_succ, List.foldl_cons]
    cases j using Fin.cases with
    | zero => simpa [hfirst, Fin.succ_ne_zero] using foldl_zeros n
    | succ j => simpa [hzero, Fin.succ_inj, (Fin.succ_ne_zero j).symm] using ih j

theorem dot_unit (j : Fin n) : Vec.dot (Vec.unit j) (Vec.unit j) = (1.0 : Float) := by
  have hsquares : Vector.zipWith (· * ·) (Vec.unit j) (Vec.unit j) =
      (Vec.unit j : Vec Float n) := by
    have hone : (1.0 : Float) * 1.0 = 1.0 := by decide +kernel
    have hzero : (0.0 : Float) * 0.0 = 0.0 := by decide +kernel
    ext i hi
    simp only [Vec.unit, Vector.getElem_zipWith, Vector.getElem_ofFn]
    split
    · exact hone
    · exact hzero
  rw [Vec.dot, hsquares, Vec.total, ← Vector.foldl_toList, Vec.unit, Vector.toList_ofFn, foldl_unit]

/-- The length of a unit vector of doubles is not zero. -/
theorem euclid_unit (j : Fin n) : ((Vec.unit j : Vec Float n).euclid == 0.0) = false := by
  rw [Vec.euclid, dot_unit]
  decide +kernel

end Doubles

end Rootfinder
