import Rootfinder.Proofs.Lockstep
import Rootfinder.Proofs.Quitting
import Rootfinder.Proofs.RunDecomposition

namespace Rootfinder

variable {α σ τ υ ω β γ δ ε : Type} {n : Nat}

namespace Act

inductive PairedUpTo (E : Fault α → Prop) (R : σ → τ → Prop) (Q : β → γ → Prop)
    (o : Outcome α σ β) (o' : Outcome α τ γ) : Prop where
  | paired (h : Paired R Q o o')
  | raised {e : Fault α} (he : E e) (h : o.result = .error e)

/-- Computations that go in lockstep unless the first raises one of some faults. -/
def LockstepUpTo (E : Fault α → Prop) (R : σ → τ → Prop) (Q : β → γ → Prop) (x : Act α σ β)
    (y : Act α τ γ) : Prop :=
  ∀ s t, R s t → PairedUpTo E R Q (x.run s) (y.run t)

section Rules

variable {E : Fault α → Prop} {R : σ → τ → Prop} {Q : β → γ → Prop} {x x' : Act α σ β}
  {y y' : Act α τ γ} {s : σ} {t : τ}

theorem PairedUpTo.paired_of_not {o : Outcome α σ β} {o' : Outcome α τ γ}
    (h : PairedUpTo E R Q o o') (hE : ∀ e, ¬ E e) : Paired R Q o o' := by
  cases h with
  | paired h => exact h
  | raised he _ => exact (hE _ he).elim

theorem Lockstep.upTo (h : Lockstep R Q x y) : LockstepUpTo E R Q x y :=
  fun s t hs => .paired (h s t hs)

theorem LockstepUpTo.imp {Q' : β → γ → Prop} (h : LockstepUpTo E R Q x y)
    (hQ : ∀ b c, Q b c → Q' b c) : LockstepUpTo E R Q' x y := by
  intro s t hs
  cases h s t hs with
  | paired h => exact .paired ⟨h.result.imp hQ, h.state, h.trace⟩
  | raised he h => exact .raised he h

theorem LockstepUpTo.lockstep (h : LockstepUpTo (fun _ => False) R Q x y) : Lockstep R Q x y :=
  fun s t hs => (h s t hs).paired_of_not fun _ he => he

theorem upTo_ofExcept {r : Except (Fault α) β} {r' : Except (Fault α) γ}
    (h : Matching Q r r' ∨ ∃ e, E e ∧ r = .error e) :
    LockstepUpTo E R Q (ofExcept r) (ofExcept r') := by
  obtain h | ⟨e, he, rfl⟩ := h
  · exact (lockstep_ofExcept h).upTo
  · exact fun s t _ => .raised he rfl

/-- What follows may rely on what the first computation returned. -/
theorem PairedUpTo.bind {Q' : δ → ε → Prop} {f : β → Act α σ δ} {g : γ → Act α τ ε}
    (h : PairedUpTo E R Q (x.run s) (y.run t))
    (hf : ∀ b c s' t', x.Returns s b s' → Q b c → R s' t' →
      PairedUpTo E R Q' ((f b).run s') ((g c).run t')) :
    PairedUpTo E R Q' ((x >>= f).run s) ((y >>= g).run t) := by
  rcases hx : x.run s with ⟨r, s', u⟩
  rw [hx] at h
  cases h with
  | raised he h =>
    obtain rfl : r = .error _ := h
    rw [run_bind_error hx]
    exact .raised he rfl
  | paired h =>
    obtain ⟨hr, hst, htr⟩ := h
    rcases hy : y.run t with ⟨r', t', u'⟩
    rw [hy] at hr hst htr
    obtain rfl : u = u' := htr
    cases hr with
    | error e =>
      rw [run_bind_error hx, run_bind_error hy]
      exact .paired ⟨.error e, hst, rfl⟩
    | @ok b c hq =>
      have hret : x.Returns s b s' := ⟨by rw [hx], by rw [hx]⟩
      rw [run_bind_ok hx, run_bind_ok hy]
      cases hf b c s' t' hret hq hst with
      | paired h => exact .paired ⟨h.result, h.state, congrArg (u ++ ·) h.trace⟩
      | raised he h => exact .raised he h

/-- A fault that is handed over as a value may be raised by what follows. -/
theorem PairedUpTo.attempt_bind {F : Fault α → Prop} (hF : ∀ e, F e → E e) {Q' : δ → ε → Prop}
    {f : Except (Fault α) β → Act α σ δ} {g : Except (Fault α) γ → Act α τ ε}
    (h : PairedUpTo F R Q (x.run s) (y.run t))
    (hpaired : ∀ r r' t', (x.run s).result = r → Matching Q r r' → R (x.run s).state t' →
      PairedUpTo E R Q' ((f r).run (x.run s).state) ((g r').run t'))
    (hraised : ∀ e, F e → (x.run s).result = .error e →
      ((f (.error e)).run (x.run s).state).result = .error e) :
    PairedUpTo E R Q' ((attempt x >>= f).run s) ((attempt y >>= g).run t) := by
  rw [run_bind_ok (run_attempt x s), run_bind_ok (run_attempt y t)]
  cases h with
  | paired h =>
    cases hpaired _ _ _ rfl h.result h.state with
    | paired h' => exact .paired ⟨h'.result, h'.state, by rw [h.trace, h'.trace]⟩
    | raised he h' => exact .raised he h'
  | raised he h =>
    rw [h]
    exact .raised (hF _ he) (hraised _ he h)

theorem LockstepUpTo.bind {Q' : δ → ε → Prop} {f : β → Act α σ δ} {g : γ → Act α τ ε}
    (h : LockstepUpTo E R Q x y) (hf : ∀ b c, Q b c → LockstepUpTo E R Q' (f b) (g c)) :
    LockstepUpTo E R Q' (x >>= f) (y >>= g) := fun s t hs =>
  (h s t hs).bind fun b c s' t' _ hq hs' => hf b c hq s' t' hs'

theorem LockstepUpTo.seq {y : Act α τ β} {Q' : δ → ε → Prop} {f : β → Act α σ δ}
    {g : β → Act α τ ε} (h : LockstepUpTo E R Eq x y)
    (hf : ∀ b, LockstepUpTo E R Q' (f b) (g b)) : LockstepUpTo E R Q' (x >>= f) (y >>= g) :=
  h.bind fun b _ hb => hb ▸ hf b

/-- Between two states that are read, only those that are related matter. -/
theorem upTo_read_bind {f : σ → Act α σ δ} {g : τ → Act α τ ε} {Q' : δ → ε → Prop}
    (h : ∀ s t, R s t → LockstepUpTo E R Q' (f s) (g t)) :
    LockstepUpTo E R Q' (read >>= f) (read >>= g) :=
  lockstep_read.upTo.bind h

theorem LockstepUpTo.ite {c : Prop} [Decidable c] (hx : LockstepUpTo E R Q x y)
    (hy : LockstepUpTo E R Q x' y') :
    LockstepUpTo E R Q (if c then x else x') (if c then y else y') := by
  split
  · exact hx
  · exact hy

theorem LockstepUpTo.zoom {P : υ → ω → Prop} {x : Act α υ β} {y : Act α ω γ}
    (h : LockstepUpTo E P Q x y) {get : σ → υ} {put : υ → σ → σ} {get' : τ → ω}
    {put' : ω → τ → τ} (hget : ∀ s t, R s t → P (get s) (get' t))
    (hput : ∀ u v s t, P u v → R s t → R (put u s) (put' v t)) :
    LockstepUpTo E R Q (zoom get put x) (zoom get' put' y) := by
  intro s t hs
  cases h _ _ (hget s t hs) with
  | paired h => exact .paired ⟨h.result, hput _ _ s t h.state hs, h.trace⟩
  | raised he h => exact .raised he h

end Rules

end Act

open Act

/-- Two systems that evaluate the same wherever the first does not raise one of some faults. -/
structure System.AgreesUpTo [Scalar α] (E : Fault α → Prop) (S S' : System α n) : Prop where
  residualInto : ∀ (start u out : Vec α n) (p : Parameter α),
    Problem.residualInto ⟨S, start, p⟩ u out = Problem.residualInto ⟨S', start, p⟩ u out ∨
      ∃ e, E e ∧ (Problem.residualInto ⟨S, start, p⟩ u out).fault = some e
  jacobian : ∀ (start u : Vec α n) (p : Parameter α),
    Problem.jacobian ⟨S, start, p⟩ u = Problem.jacobian ⟨S', start, p⟩ u ∨
      ∃ e, E e ∧ Problem.jacobian ⟨S, start, p⟩ u = .error e
  hasJacobian : S.hasJacobian = S'.hasJacobian

structure Linearized.AgreesUpTo [Scalar α] (E : Fault α → Prop) (A A' : Linearized α n) :
    Prop where
  matrix : A.matrix? = A'.matrix?
  product : ∀ v, LockstepUpTo E Eq Eq (A.product v) (A'.product v)

/-- A preconditioner that raises what the products of its system raise. -/
def Preconditioner.LetsThrough [Scalar α] (f : Preconditioner α) : Prop :=
  ∀ (E : Fault α → Prop) (n : Nat) (A A' : Linearized α n), A.AgreesUpTo E A' →
    ∀ (u : List α) (p : Parameter α), f n A u p = f n A' u p ∨ ∃ e, E e ∧ f n A u p = .error e

theorem Inquiry.upTo_run {E : Fault α → Prop} {f f' : Vec α n → Act α Stats (Vec α n)}
    (hf : ∀ v, LockstepUpTo E Eq Eq (f v) (f' v)) (q : Inquiry α n β) :
    LockstepUpTo E Eq Eq (q.run f) (q.run f') := by
  induction q with
  | done b => exact lockstep_rfl.upTo
  | ask v next ih => exact (hf v).seq ih

variable [Scalar α] {E : Fault α → Prop} {S S' : System α n}

theorem System.Agrees.upTo (h : S.Agrees S') : S.AgreesUpTo E S' :=
  ⟨fun start u out p => .inl (h.residualInto start u out p),
    fun start u p => .inl (h.jacobian start u p), h.hasJacobian⟩

theorem Linearized.agreesUpTo_refl (A : Linearized α n) : A.AgreesUpTo E A :=
  ⟨rfl, fun _ => lockstep_rfl.upTo⟩

/-- Where no fault is excepted, the maps are the same. -/
theorem Linearized.AgreesUpTo.eq {A A' : Linearized α n} (h : A.AgreesUpTo (fun _ => False) A') :
    A = A' := by
  have hproduct : ∀ v, A.product v = A'.product v := fun v =>
    Act.ext fun s => ((h.product v).lockstep s s rfl).eq.symm
  cases A with
  | dense J =>
    cases A' with
    | dense J' => exact congrArg dense (Option.some.inj h.matrix)
    | operator f' => cases h.matrix
  | operator f =>
    cases A' with
    | dense J' => cases h.matrix
    | operator f' => exact congrArg operator (funext hproduct)

namespace System.AgreesUpTo

variable (hS : S.AgreesUpTo E S') {P : Problem α n} (hP : P.system = S)

include hS hP

theorem residual (u : Vec α n) : Matching Eq (P.residual u) ((P.onto S').residual u) ∨
    ∃ e, E e ∧ P.residual u = .error e := by
  subst hP
  obtain h | ⟨e, he, h⟩ := hS.residualInto P.start u (Vec.zero n) P.parameter
  · have hr : P.residual u = (P.onto S').residual u := congrArg Filled.toExcept h
    rw [← hr]
    exact .inl (matching_refl _)
  · refine .inr ⟨e, he, ?_⟩
    have hfault : (P.residualInto u (Vec.zero n)).fault = some e := h
    rw [Problem.residual, Filled.toExcept, hfault]

theorem jacobian_matching (u : Vec α n) :
    Matching Eq (P.jacobian u) ((P.onto S').jacobian u) ∨
      ∃ e, E e ∧ P.jacobian u = .error e := by
  subst hP
  obtain h | h := hS.jacobian P.start u P.parameter
  · have hr : P.jacobian u = (P.onto S').jacobian u := h
    rw [← hr]
    exact .inl (matching_refl _)
  · exact .inr h

theorem hasJacobian_onto : (P.onto S').system.hasJacobian = P.system.hasJacobian := by
  subst hP
  exact hS.hasJacobian.symm

end System.AgreesUpTo

section Linear

variable (hS : S.AgreesUpTo E S') {P : Problem α n} (hP : P.system = S) (d : Differencing α)
  (u fu : Vec α n)

namespace Jacobian

include hS hP

theorem upTo_probe (x : Vec α n) : LockstepUpTo E Eq Eq (probe P x) (probe (P.onto S') x) :=
  (upTo_ofExcept (hS.residual hP x)).seq fun _ => lockstep_rfl.upTo

theorem upTo_directional (v : Vec α n) :
    LockstepUpTo E Eq Eq (directional P d u fu v) (directional (P.onto S') d u fu v) := by
  unfold directional quotient
  refine LockstepUpTo.ite lockstep_rfl.upTo ?_
  refine lockstep_rfl.upTo.seq fun step => lockstep_rfl.upTo.seq fun v => ?_
  refine (upTo_probe hS hP _).seq fun ahead => LockstepUpTo.ite ?_ lockstep_rfl.upTo
  exact (upTo_probe hS hP _).seq fun behind => lockstep_rfl.upTo

theorem upTo_differences :
    LockstepUpTo E Eq Eq (differences P d u fu) (differences (P.onto S') d u fu) := by
  unfold differences
  generalize (Mat.zero n n : Mat α n n) = J
  induction List.finRange n generalizing J with
  | nil => exact lockstep_rfl.upTo
  | cons j js ih =>
    rw [List.foldlM_cons, List.foldlM_cons]
    exact ((upTo_directional hS hP d u fu _).seq fun c => lockstep_rfl.upTo).seq ih

theorem upTo_matrix : LockstepUpTo E Eq Eq (matrix P d u fu) (matrix (P.onto S') d u fu) := by
  unfold matrix
  rw [hS.hasJacobian_onto hP]
  exact LockstepUpTo.ite (upTo_ofExcept (hS.jacobian_matching hP u)) (upTo_differences hS hP d u fu)

theorem upTo_dense : LockstepUpTo E Eq Eq (dense P d u fu) (dense (P.onto S') d u fu) :=
  lockstep_rfl.upTo.seq fun _ => upTo_matrix hS hP d u fu

/-- A matrix, or an analytic Jacobian, is the same on both systems once it is there. -/
theorem upTo_build_data {concrete : Bool} (h : concrete = true ∨ P.system.hasJacobian = true) :
    LockstepUpTo E Eq Eq (build concrete P d u fu) (build concrete (P.onto S') d u fu) := by
  unfold build
  refine lockstep_rfl.upTo.seq fun _ => ?_
  split
  · exact (upTo_matrix hS hP d u fu).seq fun J => lockstep_rfl.upTo
  · rename_i hc
    have hj := h.resolve_left hc
    unfold operator
    rw [hS.hasJacobian_onto hP, hj, if_pos rfl, if_pos rfl]
    exact (upTo_ofExcept (hS.jacobian_matching hP u)).seq fun J => lockstep_rfl.upTo

theorem upTo_build (concrete : Bool) : LockstepUpTo E Eq (Linearized.AgreesUpTo E)
    (build concrete P d u fu) (build concrete (P.onto S') d u fu) := by
  cases hc : concrete || P.system.hasJacobian with
  | true =>
    exact (upTo_build_data hS hP d u fu ((Bool.or_eq_true _ _).mp hc)).imp fun A _ hA =>
      hA ▸ A.agreesUpTo_refl
  | false =>
    obtain ⟨hc, hj⟩ := (Bool.or_eq_false_iff).mp hc
    unfold build operator
    rw [hS.hasJacobian_onto hP, hc, hj]
    refine lockstep_rfl.upTo.seq fun _ => (lockstep_pure ⟨rfl, fun v => ?_⟩).upTo
    exact upTo_directional hS hP d u fu v

end Jacobian

/-- A linear solve goes on alike with systems whose products agree, or lets their faults through. -/
theorem LinearSolver.upTo_solve {s : LinearSolver α} (hs : ∀ f ∈ s.preconditioner, f.LetsThrough)
    {A A' : Linearized α n} (hA : A.AgreesUpTo E A') (b : Vec α n) (u : List α)
    (p : Parameter α) : LockstepUpTo E Eq Eq (s.solve A b u p) (s.solve A' b u p) := by
  have hkrylov : LockstepUpTo E Eq Eq (s.krylov A b u p) (s.krylov A' b u p) := by
    unfold krylov
    cases hf : s.preconditioner with
    | none =>
      exact lockstep_rfl.upTo.seq fun M =>
        (Inquiry.upTo_run hA.product _).seq fun r => lockstep_rfl.upTo
    | some f =>
      refine LockstepUpTo.seq (upTo_ofExcept ((hs f hf E n A A' hA u p).imp_left fun h => ?_))
        fun M => (Inquiry.upTo_run hA.product _).seq fun r => lockstep_rfl.upTo
      rw [h]
      exact matching_refl _
  unfold solve
  refine lockstep_rfl.upTo.seq fun _ => ?_
  cases A with
  | dense J =>
    cases A' with
    | dense J' =>
      obtain rfl : J = J' := Option.some.inj hA.matrix
      cases s.method with
      | gmres => exact hkrylov
      | _ => exact lockstep_rfl.upTo
    | operator f' => cases hA.matrix
  | operator f =>
    cases A' with
    | dense J' => cases hA.matrix
    | operator f' =>
      cases s.method with
      | gmres => exact hkrylov
      | _ => exact lockstep_rfl.upTo

end Linear

namespace LineSearch

variable {R : σ → τ → Prop}

theorem lockstep_capped (prm : Params α) (delta : Vec α n) :
    Lockstep R Eq (capped prm delta) (capped prm delta) := by
  unfold capped
  split
  · exact lockstep_raise _
  · exact lockstep_pure rfl
  · refine Lockstep.ite (lockstep_pure rfl) (Lockstep.ite ?_ (lockstep_pure rfl))
    exact (lockstep_log _).seq fun _ => lockstep_pure rfl

variable {prm : Params α} {f : Vec α n → Act α σ (Vec α n)} {g : Vec α n → Act α τ (Vec α n)}
  (hr : ∀ x, LockstepUpTo E R Eq (f x) (g x)) {norm : Norm α} {start delta : Vec α n} {current : α}

include hr

theorem Search.upTo_trials (fuel : Nat) (alpha : α) (best : Option (Trial α n)) :
    LockstepUpTo E R Eq (trials ⟨prm, f, norm, start, delta, current⟩ fuel alpha best)
      (trials ⟨prm, g, norm, start, delta, current⟩ fuel alpha best) := by
  induction fuel generalizing alpha best with
  | zero => exact (lockstep_raise _).upTo
  | succ fuel ih =>
    have hshorter : ∀ best, LockstepUpTo E R Eq
        (if alpha * prm.reduction < alpha
          then trials ⟨prm, f, norm, start, delta, current⟩ fuel (alpha * prm.reduction) best
          else Act.raise .endless)
        (if alpha * prm.reduction < alpha
          then trials ⟨prm, g, norm, start, delta, current⟩ fuel (alpha * prm.reduction) best
          else Act.raise .endless) :=
      fun best => LockstepUpTo.ite (ih _ best) (lockstep_raise _).upTo
    rw [trials, trials]
    refine LockstepUpTo.ite ?_ ?_
    · refine LockstepUpTo.seq ((hr _).seq fun _ => (lockstep_pure rfl).upTo) fun t => ?_
      refine LockstepUpTo.ite ((lockstep_log _).upTo.seq fun _ => hshorter best) ?_
      refine LockstepUpTo.ite (Lockstep.upTo ?_) (hshorter _)
      exact (lockstep_log _).seq fun _ => lockstep_pure rfl
    · cases best with
      | none => exact (lockstep_raise _).upTo
      | some t => exact Lockstep.upTo ((lockstep_log _).seq fun _ => lockstep_pure rfl)

theorem upTo_search : LockstepUpTo E R Eq (search prm f norm start delta current)
    (search prm g norm start delta current) :=
  (lockstep_capped prm delta).upTo.seq fun _ => Search.upTo_trials hr _ _ _

end LineSearch

namespace Iteration

omit [Scalar α] in
theorem upTo_counting {Q : β → γ → Prop} {x : Act α Stats β} {y : Act α Stats γ}
    (h : LockstepUpTo E Eq Q x y) :
    LockstepUpTo E (Across (σ := σ) S S') Q (counting x) (counting y) := by
  refine h.zoom (fun it _ hi => ?_) fun k _ it _ hk hi => ?_
  · obtain ⟨-, rfl⟩ := hi
    rfl
  · obtain ⟨hs, rfl⟩ := hi
    exact ⟨hs, hk ▸ rfl⟩

omit [Scalar α] in
theorem upTo_change {f : Iteration α n σ → Iteration α n σ}
    (hp : ∀ it, (f it).problem = it.problem) (hf : ∀ it, f (it.onto S') = (f it).onto S') :
    LockstepUpTo E (Across S S') Eq (update f) (update f) :=
  (lockstep_change hp hf).upTo

section Runs

variable {m m' : Method α n σ} (hm : Method.Akin m m') {it it' : Iteration α n σ}

include hm

theorem step_upTo (hi : Across S S' it it')
    (h : (it.tested m).terminated = false →
      PairedUpTo E (Across S S') Eq (m.advance.run it) (m'.advance.run it')) :
    PairedUpTo E (Across S S') Eq ((step m).run it) ((step m').run it') := by
  obtain ⟨hs, rfl⟩ := hi
  unfold step
  rw [Act.run_read_bind, Act.run_read_bind]
  change PairedUpTo E _ _ _ ((if it.terminated then _ else _ : Act _ _ _).run (it.onto S'))
  cases ht : it.terminated with
  | true => exact (lockstep_pure rfl).upTo it _ ⟨hs, rfl⟩
  | false =>
    -- The test reads the residual only, so that both runs pass it or neither does.
    refine ((lockstep_checkTermination hm).upTo it _ ⟨hs, rfl⟩).bind fun _ _ z z' hz _ hzz' => ?_
    obtain rfl : it.tested m = z := by
      have hw : (checkTermination m).wp (fun _ z => z = it.tested m) (fun _ _ => True) it :=
        (wp_test ht).mpr rfl
      rw [← hz.2]
      exact (hw.of_ok hz.1).symm
    obtain ⟨hs', rfl⟩ := hzz'
    rw [Act.run_read_bind, Act.run_read_bind]
    change PairedUpTo E _ _ _ ((if (it.tested m).terminated then _ else _ : Act _ _ _).run
      ((it.tested m).onto S'))
    cases hterm : (it.tested m).terminated with
    | true => exact (lockstep_pure rfl).upTo _ _ ⟨hs', rfl⟩
    | false =>
      rw [(tested_eq_self hterm).2.2]
      exact (h hterm).bind fun _ _ x x' _ _ hx => (lockstep_conclude hm).upTo x x' hx

/-- Where all steps on the course of a run go alike, so does the run. -/
theorem solve_upTo (hi : Across S S' it it')
    (h : ∀ z z', OnCourse m it z → Across S S' z z' →
      PairedUpTo E (Across S S') Eq ((step m).run z) ((step m').run z')) :
    PairedUpTo E (Across S S') (fun r r' => r.problem.system = S ∧ r' = r.onto S')
      ((solve m).run it) ((solve m').run it') := by
  have hdrive : ∀ (fuel : Nat) z z', OnCourse m it z → Across S S' z z' →
      PairedUpTo E (Across S S') Eq ((drive m fuel).run z) ((drive m' fuel).run z') := by
    intro fuel
    induction fuel with
    | zero => exact fun z z' _ hz => (lockstep_pure rfl).upTo z z' hz
    | succ fuel ih =>
      rintro z _ hcourse ⟨hs, rfl⟩
      unfold drive
      rw [Act.run_read_bind, Act.run_read_bind]
      change PairedUpTo E _ _ _ ((if z.terminated then _ else _ : Act _ _ _).run (z.onto S'))
      split
      · exact (lockstep_pure rfl).upTo z _ ⟨hs, rfl⟩
      · exact (h z _ hcourse ⟨hs, rfl⟩).bind fun _ _ x x' hx _ hxx' =>
          ih x x' (hcourse.step hx) hxx'
  obtain ⟨hs, rfl⟩ := hi
  have hleft : (it.onto S').stepsLeft m' = it.stepsLeft m := by
    rw [stepsLeft, ← hm.options]
    rfl
  unfold solve
  rw [Act.run_read_bind, Act.run_read_bind, hleft]
  refine (hdrive _ it _ (.refl it) ⟨hs, rfl⟩).bind fun _ _ x x' _ _ hx => ?_
  obtain ⟨hs', rfl⟩ := hx
  refine (lockstep_pure ⟨hs', ?_⟩).upTo x _ ⟨hs', rfl⟩
  rw [toRun, ← hm.name]
  rfl

variable (ha : Lockstep (Across S S') Eq m.advance m'.advance)

include ha

theorem lockstep_step : Lockstep (Across S S') Eq (step m) (step m') :=
  LockstepUpTo.lockstep fun _ _ hi => step_upTo hm hi fun _ => ha.upTo _ _ hi

theorem lockstep_solve :
    Lockstep (Across S S') (fun r r' => r.problem.system = S ∧ r' = r.onto S') (solve m)
      (solve m') :=
  LockstepUpTo.lockstep fun _ _ hi => solve_upTo hm hi fun z z' _ hz =>
    (lockstep_step hm ha).upTo z z' hz

end Runs

variable (hS : S.AgreesUpTo E S')

include hS

theorem upTo_evaluate (x : Vec α n) :
    LockstepUpTo E (Across (σ := σ) S S') Eq (evaluate x) (evaluate x) := by
  unfold evaluate
  refine LockstepUpTo.seq (upTo_change (fun _ => rfl) fun _ => rfl) fun _ =>
    upTo_read_bind ?_
  rintro it _ ⟨hs, rfl⟩
  exact upTo_ofExcept (hS.residual hs x)

theorem upTo_refresh : LockstepUpTo E (Across (σ := σ) S S') Eq refresh refresh := by
  unfold refresh
  refine LockstepUpTo.seq (upTo_change (fun _ => rfl) fun _ => rfl) fun _ =>
    upTo_read_bind ?_
  rintro it _ ⟨rfl, rfl⟩
  obtain h | ⟨e, he, h⟩ := hS.residualInto it.problem.start it.u it.fu it.problem.parameter
  · have hr : (it.onto S').problem.residualInto it.u it.fu = it.problem.residualInto it.u it.fu :=
      h.symm
    dsimp only [onto] at hr ⊢
    rw [hr]
    refine LockstepUpTo.seq (upTo_change (fun _ => rfl) fun _ => rfl) fun _ => ?_
    cases (it.problem.residualInto it.u it.fu).fault with
    | none => exact (lockstep_pure rfl).upTo
    | some e => exact (lockstep_raise e).upTo
  · have hfault : (it.problem.residualInto it.u it.fu).fault = some e := h
    dsimp only
    rw [hfault]
    exact fun z _ _ => .raised he rfl

theorem upTo_moveTo (x : Vec α n) :
    LockstepUpTo E (Across (σ := σ) S S') Eq (moveTo x) (moveTo x) :=
  LockstepUpTo.seq (upTo_change (fun _ => rfl) fun _ => rfl) fun _ => upTo_refresh hS

end Iteration

open Iteration

section Methods

variable (hS : S.AgreesUpTo E S')

namespace Secant

variable {ε : Type} (plan : Plan α ε)

omit [Scalar α] in
theorem lockstep_registerReset :
    Lockstep (Across (n := n) S S') Eq (registerReset plan) (registerReset plan) := by
  unfold registerReset
  refine Lockstep.seq (lockstep_change (fun _ => rfl) fun _ => rfl) fun _ =>
    lockstep_read.bind ?_
  rintro it _ ⟨-, rfl⟩
  refine Lockstep.ite ((lockstep_terminate _ _ _).seq fun _ => lockstep_pure rfl) ?_
  refine (lockstep_log _).seq fun _ => ?_
  exact Lockstep.seq (lockstep_change (fun _ => rfl) fun _ => rfl) fun _ => lockstep_pure rfl

include hS

theorem upTo_follow (delta : Vec α n) (updated : ε → Vec α n → Vec α n → Option ε) :
    LockstepUpTo E (Across S S') Eq (follow plan delta updated) (follow plan delta updated) := by
  have hreset : Lockstep (Across (n := n) S S') Eq (discard (registerReset plan))
      (discard (registerReset plan)) :=
    (lockstep_registerReset plan).seq fun _ => lockstep_pure rfl
  unfold follow
  refine upTo_read_bind ?_
  rintro before _ ⟨-, rfl⟩
  refine LockstepUpTo.ite ?_ hreset.upTo
  refine (upTo_moveTo hS _).seq fun _ => upTo_read_bind ?_
  rintro it _ ⟨-, rfl⟩
  dsimp only [onto]
  cases updated before.memory.estimate delta (it.fu - before.fu) with
  | some estimate => exact upTo_change (fun _ => rfl) fun _ => rfl
  | none => exact hreset.upTo

end Secant

include hS

theorem Klement.upTo_advance (limit : Nat) (o : Options α) :
    LockstepUpTo E (Across S S') Eq (advance (n := n) limit o) (advance limit o) := by
  have hpropose : LockstepUpTo E (Across S S') Eq (propose (n := n) limit o) (propose limit o) := by
    refine upTo_read_bind ?_
    rintro it _ ⟨-, rfl⟩
    exact Secant.upTo_follow hS _ _ _
  refine upTo_read_bind ?_
  rintro it _ ⟨-, rfl⟩
  refine LockstepUpTo.ite ?_ hpropose
  refine (Secant.lockstep_registerReset _).upTo.seq fun goOn => ?_
  exact LockstepUpTo.ite hpropose (lockstep_pure rfl).upTo

theorem Broyden.upTo_advance (limit : Nat) (o : Options α) :
    LockstepUpTo E (Across S S') Eq (advance (n := n) limit o) (advance limit o) := by
  refine upTo_read_bind ?_
  rintro it _ ⟨-, rfl⟩
  exact Secant.upTo_follow hS _ _ _

end Methods

namespace TrustRegion

variable (scheme : Scheme) (prm : Params α) (l : Linearization α) (o : Options α)
  (hS : S.AgreesUpTo E S')

omit [Scalar α] in
/-- The memory does not know of the system. -/
theorem lockstep_remembering {β : Type} (x : Act α (Memory α n) β) :
    Lockstep (Across S S') Eq (remembering x) (remembering x) := by
  refine Lockstep.zoom lockstep_rfl (fun it _ hi => ?_) fun m _ it _ hm hi => ?_
  · obtain ⟨-, rfl⟩ := hi
    rfl
  · obtain ⟨hs, rfl⟩ := hi
    exact ⟨hs, hm ▸ rfl⟩

/-- Nor does the linear solve, which has a matrix. -/
theorem lockstep_newtonStep (J : Mat α n n) :
    Lockstep (Across S S') Eq (newtonStep l J) (newtonStep l J) := by
  unfold newtonStep
  refine lockstep_read.bind ?_
  rintro it _ ⟨-, rfl⟩
  refine Lockstep.bind (lockstep_counting lockstep_rfl).attempt fun r _ hr => ?_
  cases hr with
  | @ok s _ hs =>
    subst hs
    exact lockstep_pure rfl
  | error e => exact Lockstep.ite (lockstep_pure rfl) (lockstep_raise e)

include hS

theorem upTo_jacobian :
    LockstepUpTo E (Across S S') Eq (jacobian (n := n) l) (jacobian l) := by
  unfold jacobian
  refine upTo_read_bind ?_
  rintro it _ ⟨hs, rfl⟩
  have hm : (it.onto S').memory.jacobian = it.memory.jacobian := rfl
  rw [hm]
  cases it.memory.jacobian with
  | some J => exact (lockstep_pure rfl).upTo
  | none =>
    refine (upTo_counting (Jacobian.upTo_dense hS hs _ _ _)).seq fun J => Lockstep.upTo ?_
    exact Lockstep.seq (lockstep_change (fun _ => rfl) fun _ => rfl) fun _ => lockstep_pure rfl

theorem upTo_update (rho : α) (s trial fuTrial : Vec α n) :
    LockstepUpTo E (Across S S') Eq (update scheme prm l rho s trial fuTrial)
      (update scheme prm l rho s trial fuTrial) := by
  cases scheme with
  | simple => exact (lockstep_remembering _).upTo
  | nlsolve => exact (lockstep_remembering _).upTo
  | fan =>
    refine upTo_read_bind ?_
    rintro it _ ⟨-, rfl⟩
    exact (lockstep_remembering _).upTo
  | bastin =>
    refine (lockstep_ofExcept (matching_refl _)).upTo.seq fun kept => LockstepUpTo.ite ?_ ?_
    · exact Lockstep.upTo ((lockstep_remembering _).seq fun _ => lockstep_pure rfl)
    · refine (lockstep_remembering _).upTo.seq fun _ => upTo_read_bind ?_
      rintro before _ ⟨-, rfl⟩
      refine (lockstep_adopt trial fuTrial).upTo.seq fun _ => upTo_read_bind ?_
      rintro it _ ⟨hs, rfl⟩
      refine (upTo_counting (Jacobian.upTo_dense hS hs _ _ _)).seq fun J => Lockstep.upTo ?_
      exact (lockstep_remembering _).seq fun _ => lockstep_pure rfl

theorem upTo_attemptStep (J : Mat α n n) (s : Vec α n) :
    LockstepUpTo E (Across S S') Eq (attemptStep scheme prm l o J s)
      (attemptStep scheme prm l o J s) := by
  have hend : Lockstep (Across S S') Eq
      (do let it ← Act.read
          if exhausted prm it.memory then
            Act.log (.shrankRepeatedly (name scheme) it.memory.shrinks)
            Iteration.terminate (name scheme) o.norm .shrinkThresholdExceeded :
        Act α (Iteration α n (Memory α n)) Unit)
      (do let it ← Act.read
          if exhausted prm it.memory then
            Act.log (.shrankRepeatedly (name scheme) it.memory.shrinks)
            Iteration.terminate (name scheme) o.norm .shrinkThresholdExceeded) := by
    refine lockstep_read.bind ?_
    rintro it _ ⟨-, rfl⟩
    exact Lockstep.ite ((lockstep_log _).seq fun _ => lockstep_terminate _ _ _) (lockstep_pure rfl)
  unfold attemptStep
  refine upTo_read_bind ?_
  rintro it _ ⟨-, rfl⟩
  refine (upTo_evaluate hS _).seq fun fuTrial => ?_
  refine (upTo_update scheme prm l hS _ _ _ _).seq fun accepted => LockstepUpTo.ite ?_ hend.upTo
  refine (lockstep_adopt _ _).upTo.seq fun _ => Lockstep.upTo ?_
  exact (lockstep_remembering _).seq fun _ => hend

theorem upTo_advance :
    LockstepUpTo E (Across S S') Eq (advance (n := n) scheme prm l o) (advance scheme prm l o) := by
  unfold advance
  refine (upTo_jacobian l hS).seq fun J => (lockstep_newtonStep l J).upTo.seq fun newton => ?_
  refine upTo_read_bind ?_
  rintro it _ ⟨-, rfl⟩
  refine (lockstep_ofExcept (matching_refl _)).upTo.seq fun s => ?_
  exact LockstepUpTo.ite (upTo_attemptStep scheme prm l o hS J s) (lockstep_terminate _ _ _).upTo

end TrustRegion

namespace Newton

variable (search : Option (LineSearch.Params α)) (o : Options α) (hS : S.AgreesUpTo E S')

include hS

/-- The search along a step goes on alike, or a trial point raises. -/
theorem upTo_searched (prm : LineSearch.Params α) (delta : Vec α n) :
    LockstepUpTo E (Across S S') Eq (searched (n := n) o prm delta) (searched o prm delta) := by
  unfold searched
  refine upTo_read_bind ?_
  rintro it _ ⟨-, rfl⟩
  exact LineSearch.upTo_search (upTo_evaluate hS)

/-- A step is taken alike on both systems unless the search along it loses one of the faults. -/
theorem follow_upTo {delta : Vec α n} {it it' : Iteration α n Unit} (hi : Across S S' it it')
    (hlost : ∀ prm e, search = some prm → E e → e.kind = .convergence →
      ((searched o prm delta).run it).result ≠ .error e) :
    PairedUpTo E (Across S S') Eq ((follow search o delta).run it)
      ((follow search o delta).run it') := by
  obtain ⟨hs, rfl⟩ := hi
  unfold follow
  rw [Act.run_read_bind, Act.run_read_bind]
  cases search with
  | none => exact upTo_moveTo hS _ it _ ⟨hs, rfl⟩
  | some prm =>
    refine PairedUpTo.attempt_bind (fun _ he => he) (upTo_searched o hS prm delta it _ ⟨hs, rfl⟩)
      (fun r r' z' _ hr hz => ?_) fun e he h => ?_
    · cases hr with
      | @ok t _ ht =>
        subst ht
        exact (lockstep_adopt _ _).upTo _ _ hz
      | error e =>
        refine LockstepUpTo.ite (Lockstep.upTo ?_) (lockstep_raise e).upTo _ _ hz
        exact (lockstep_log _).seq fun _ => lockstep_terminate _ _ _
    · have hk : ¬ e.kind = .convergence := fun hk => hlost prm e rfl he hk h
      simp only [if_neg hk]
      rfl

variable {l l' : Linearization α} {it it' : Iteration α n Unit}

/-- The search along the step at an iterate comes to a fault of the class that it raises itself, for
want of progress. -/
structure SearchLoses (search : Option (LineSearch.Params α)) (l : Linearization α)
    (o : Options α) (it : Iteration α n Unit) (e : Fault α) : Prop where
  kind : e.kind = .convergence
  raised : ∃ prm A k delta k', search = some prm ∧
    (Jacobian.build l.concrete it.problem l.differencing it.u it.fu).Returns it.stats A k ∧
    (l.solver.solve A (-it.fu) it.u.toList it.problem.parameter).Returns k delta k' ∧
    delta.allFinite = true ∧
    ((searched o prm delta).run { it with stats := k' }).result = .error e

/-- Newton's method steps alike on both systems where it builds its Jacobians and solves alike,
unless the solve or the search along the step loses one of the faults. -/
theorem advance_upTo {F : Fault α → Prop} (hF : ∀ e, F e → E e) (hi : Across S S' it it')
    (hbuild : LockstepUpTo E Eq (fun A A' : Linearized α n => ∀ b u p,
        LockstepUpTo F Eq Eq (l.solver.solve A b u p) (l'.solver.solve A' b u p))
      (Jacobian.build l.concrete it.problem l.differencing it.u it.fu)
      (Jacobian.build l'.concrete (it.problem.onto S') l'.differencing it.u it.fu))
    (hsolve : ∀ e, F e → e.kind = .linearAlgebra → ¬ SolvesTo l it (.error e))
    (hsearch : ∀ e, E e → ¬ SearchLoses search l o it e) :
    PairedUpTo E (Across S S') Eq ((advance search l o).run it)
      ((advance search l' o).run it') := by
  obtain ⟨hs, rfl⟩ := hi
  unfold advance
  rw [Act.run_read_bind, Act.run_read_bind]
  refine (upTo_counting hbuild it _ ⟨hs, rfl⟩).bind fun A A' z z' hA hAA' hz => ?_
  obtain ⟨hA, rfl⟩ := hA
  have hA : (Jacobian.build l.concrete it.problem l.differencing it.u it.fu).Returns it.stats A _ :=
    ⟨hA, rfl⟩
  refine PairedUpTo.attempt_bind hF (upTo_counting (hAA' _ _ _) _ _ hz)
    (fun r r' z'' hr hrr' hz' => ?_) fun e he h => ?_
  · cases hrr' with
    | @ok delta _ hd =>
      subst hd
      dsimp only
      split
      · rename_i hfinite
        refine follow_upTo search o hS hz' fun prm e hsome he hk h => hsearch e he ⟨hk, ?_⟩
        exact ⟨prm, A, _, delta, _, hsome, hA, ⟨hr, rfl⟩, hfinite, h⟩
      · exact (lockstep_terminate _ _ _).upTo _ _ hz'
    | error e =>
      refine LockstepUpTo.ite (Lockstep.upTo ?_) (lockstep_raise e).upTo _ _ hz'
      exact (lockstep_log _).seq fun _ => lockstep_terminate _ _ _
  · have hk : ¬ e.kind = .linearAlgebra := fun hk => hsolve e he hk ⟨A, _, hA, h⟩
    simp only [if_neg hk]
    rfl

end Newton

end Rootfinder
