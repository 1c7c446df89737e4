import Rootfinder.Proofs.History

namespace Rootfinder

variable {α σ τ υ ω β γ δ ε ρ : Type} {n : Nat}

namespace Act

/-- Two results that are values related to each other, or the same fault. -/
inductive Matching (Q : β → γ → Prop) : Except (Fault α) β → Except (Fault α) γ → Prop where
  | ok {b : β} {c : γ} (h : Q b c) : Matching Q (.ok b) (.ok c)
  | error (e : Fault α) : Matching Q (.error e) (.error e)

theorem Matching.imp {Q Q' : β → γ → Prop} (hQ : ∀ b c, Q b c → Q' b c)
    {r : Except (Fault α) β} {r' : Except (Fault α) γ} (h : Matching Q r r') :
    Matching Q' r r' := by
  cases h with
  | ok h => exact .ok (hQ _ _ h)
  | error e => exact .error e

theorem matching_refl (r : Except (Fault α) β) : Matching Eq r r := by
  cases r with
  | ok b => exact .ok rfl
  | error e => exact .error e

theorem matching_map (f : β → γ) (r : Except (Fault α) β) :
    Matching (fun b c => c = f b) r (r.map f) := by
  cases r with
  | ok b => exact .ok rfl
  | error e => exact .error e

structure Paired (R : σ → τ → Prop) (Q : β → γ → Prop) (o : Outcome α σ β) (o' : Outcome α τ γ) :
    Prop where
  result : Matching Q o.result o'.result
  state : R o.state o'.state
  trace : o.trace = o'.trace

/-- Computations with matching outcomes from any related states. -/
def Lockstep (R : σ → τ → Prop) (Q : β → γ → Prop) (x : Act α σ β) (y : Act α τ γ) : Prop :=
  ∀ s t, R s t → Paired R Q (x.run s) (y.run t)

section Rules

variable {R : σ → τ → Prop} {Q : β → γ → Prop} {x x' : Act α σ β} {y y' : Act α τ γ}

theorem lockstep_rfl : Lockstep Eq Eq x x := by
  rintro s _ rfl
  exact ⟨matching_refl _, rfl, rfl⟩

theorem Lockstep.imp {Q' : β → γ → Prop} (h : Lockstep R Q x y) (hQ : ∀ b c, Q b c → Q' b c) :
    Lockstep R Q' x y := fun s t hs =>
  have ho := h s t hs
  ⟨ho.result.imp hQ, ho.state, ho.trace⟩

theorem lockstep_pure {b : β} {c : γ} (h : Q b c) : Lockstep (α := α) R Q (pure b) (pure c) :=
  fun _ _ hs => ⟨.ok h, hs, rfl⟩

theorem lockstep_read : Lockstep (α := α) R R read read := fun _ _ hs => ⟨.ok hs, hs, rfl⟩

theorem lockstep_update {f : σ → σ} {g : τ → τ} (h : ∀ s t, R s t → R (f s) (g t)) :
    Lockstep (α := α) R Eq (update f) (update g) := fun s t hs => ⟨.ok rfl, h s t hs, rfl⟩

theorem lockstep_raise (e : Fault α) : Lockstep R Q (raise e) (raise e) :=
  fun _ _ hs => ⟨.error e, hs, rfl⟩

theorem lockstep_report (e : Event α) : Lockstep R Eq (report e) (report e) :=
  fun _ _ hs => ⟨.ok rfl, hs, rfl⟩

theorem lockstep_log (note : Note α) : Lockstep R Eq (log note) (log note) :=
  lockstep_report (.note note)

theorem lockstep_ofExcept {r : Except (Fault α) β} {r' : Except (Fault α) γ}
    (h : Matching Q r r') : Lockstep R Q (ofExcept r) (ofExcept r') := by
  cases h with
  | ok h => exact lockstep_pure h
  | error e => exact lockstep_raise e

theorem Lockstep.bind {Q' : δ → ε → Prop} {f : β → Act α σ δ} {g : γ → Act α τ ε}
    (h : Lockstep R Q x y) (hf : ∀ b c, Q b c → Lockstep R Q' (f b) (g c)) :
    Lockstep R Q' (x >>= f) (y >>= g) := by
  intro s t hs
  obtain ⟨hr, hst, htr⟩ := h s t hs
  rcases hx : x.run s with ⟨r, s', u⟩
  rcases hy : y.run t with ⟨r', t', u'⟩
  rw [hx, hy] at hr hst htr
  obtain rfl : u = u' := htr
  cases hr with
  | ok hq =>
    rw [run_bind_ok hx, run_bind_ok hy]
    obtain ⟨hr', hst', htr'⟩ := hf _ _ hq s' t' hst
    exact ⟨hr', hst', congrArg (u ++ ·) htr'⟩
  | error e =>
    rw [run_bind_error hx, run_bind_error hy]
    exact ⟨.error e, hst, rfl⟩

/-- Where the values are equal, the rest is to go on from one value. -/
theorem Lockstep.seq {y : Act α τ β} {Q' : δ → ε → Prop} {f : β → Act α σ δ} {g : β → Act α τ ε}
    (h : Lockstep R Eq x y) (hf : ∀ b, Lockstep R Q' (f b) (g b)) :
    Lockstep R Q' (x >>= f) (y >>= g) :=
  h.bind fun b _ hb => hb ▸ hf b

theorem Lockstep.attempt (h : Lockstep R Q x y) :
    Lockstep R (Matching Q) (attempt x) (attempt y) := fun s t hs =>
  have ho := h s t hs
  ⟨.ok ho.result, ho.state, ho.trace⟩

theorem Lockstep.ite {c : Prop} [Decidable c] (hx : Lockstep R Q x y) (hy : Lockstep R Q x' y') :
    Lockstep R Q (if c then x else x') (if c then y else y') := by
  split
  · exact hx
  · exact hy

theorem Lockstep.zoom {P : υ → ω → Prop} {x : Act α υ β} {y : Act α ω γ} (h : Lockstep P Q x y)
    {get : σ → υ} {put : υ → σ → σ} {get' : τ → ω} {put' : ω → τ → τ}
    (hget : ∀ s t, R s t → P (get s) (get' t))
    (hput : ∀ u v s t, P u v → R s t → R (put u s) (put' v t)) :
    Lockstep R Q (zoom get put x) (zoom get' put' y) := fun s t hs =>
  have ho := h _ _ (hget s t hs)
  ⟨ho.result, hput _ _ s t ho.state hs, ho.trace⟩

theorem Lockstep.within {P : υ → ω → Prop} {x : Act α υ β} {y : Act α ω γ} (h : Lockstep P Q x y)
    {s : υ} {t : ω} (hst : P s t) : Lockstep R Q (within s x) (within t y) := fun _ _ hs =>
  have ho := h s t hst
  ⟨ho.result, hs, ho.trace⟩

end Rules

/-- The outcomes of requests that are served one after the other. -/
def transcript (serve : ρ → Act α σ β) : σ → List ρ → List (Outcome α σ β)
  | _, [] => []
  | s, r :: rs => (serve r).run s :: transcript serve ((serve r).run s).state rs

end Act

/-- An outcome with its state and its value replaced. -/
def Outcome.image (f : σ → τ) (g : β → γ) (o : Outcome α σ β) : Outcome α τ γ :=
  ⟨o.result.map g, f o.state, o.trace⟩

namespace Act

section Images

variable {R : σ → τ → Prop} {Q : β → γ → Prop} {f : σ → τ} {g : β → γ}
  (hR : ∀ s t, R s t → t = f s) (hQ : ∀ b c, Q b c → c = g b)

include hR hQ

theorem Paired.image {o : Outcome α σ β} {o' : Outcome α τ γ} (h : Paired R Q o o') :
    o' = o.image f g := by
  obtain ⟨r, s, t⟩ := o
  obtain ⟨r', s', t'⟩ := o'
  obtain ⟨hr, hs, ht⟩ := h
  obtain rfl : t = t' := ht
  obtain rfl : s' = f s := hR s s' hs
  cases hr with
  | ok hq => rw [hQ _ _ hq]; rfl
  | error e => rfl

omit hR hQ in
theorem Paired.eq {o o' : Outcome α σ β} (h : Paired Eq Eq o o') : o' = o := by
  obtain ⟨hr, hs, ht⟩ := h
  obtain ⟨r, s, t⟩ := o
  obtain ⟨r', s', t'⟩ := o'
  obtain rfl : s = s' := hs
  obtain rfl : t = t' := ht
  cases hr with
  | ok h => rw [h]
  | error e => rfl

/-- Where related states and values are images, requests that are served in lockstep have the
images of one transcript as the other. -/
theorem transcript_image {serve : ρ → Act α σ β} {serve' : ρ → Act α τ γ}
    (h : ∀ r, Lockstep R Q (serve r) (serve' r)) {s : σ} {t : τ} (hs : R s t) (rs : List ρ) :
    transcript serve' t rs = (transcript serve s rs).map (Outcome.image f g) := by
  induction rs generalizing s t with
  | nil => rfl
  | cons r rs ih =>
    have ho := h r s t hs
    rw [transcript, transcript, List.map_cons, ih ho.state, ho.image hR hQ]

end Images

end Act

structure System.Agrees [Scalar α] (S S' : System α n) : Prop where
  residualInto : ∀ (start u out : Vec α n) (p : Parameter α),
    Problem.residualInto ⟨S, start, p⟩ u out = Problem.residualInto ⟨S', start, p⟩ u out
  jacobian : ∀ (start u : Vec α n) (p : Parameter α),
    Problem.jacobian ⟨S, start, p⟩ u = Problem.jacobian ⟨S', start, p⟩ u
  hasJacobian : S.hasJacobian = S'.hasJacobian

theorem System.agrees_refl [Scalar α] (S : System α n) : S.Agrees S :=
  ⟨fun _ _ _ _ => rfl, fun _ _ _ => rfl, rfl⟩

/-- The same problem for another system. -/
def Problem.onto (P : Problem α n) (S : System α n) : Problem α n := { P with system := S }

def Run.onto (r : Run α n) (S : System α n) : Run α n := { r with problem := r.problem.onto S }

/-- A problem remade is the same on every system. -/
theorem Problem.matching_remake [Scalar α] {S S' : System α n} {P : Problem α n}
    (hP : P.system = S) (start : Option (List α)) (parameter : Option (Parameter α)) :
    Act.Matching (fun P P' => P.system = S ∧ P' = P.onto S') (P.remake start parameter)
      ((P.onto S').remake start parameter) := by
  unfold remake
  cases start with
  | none => exact .ok ⟨hP, rfl⟩
  | some xs =>
    dsimp only
    cases Vec.ofList? n xs with
    | none => exact .error _
    | some v => exact .ok ⟨hP, rfl⟩

namespace Iteration

def onto (it : Iteration α n σ) (S : System α n) : Iteration α n σ :=
  { it with problem := it.problem.onto S }

structure Across (S S' : System α n) (it it' : Iteration α n σ) : Prop where
  system : it.problem.system = S
  onto : it' = it.onto S'

open Act

variable {S S' : System α n}

/-- What does not concern the problem is done to both runs alike. -/
theorem lockstep_change {f : Iteration α n σ → Iteration α n σ}
    (hp : ∀ it, (f it).problem = it.problem) (hf : ∀ it, f (it.onto S') = (f it).onto S') :
    Lockstep (α := α) (Across S S') Eq (update f) (update f) := by
  refine lockstep_update fun it _ h => ?_
  obtain ⟨hs, rfl⟩ := h
  exact ⟨by rw [hp, hs], hf it⟩

theorem lockstep_terminate (name : String) (norm : Norm α) (code : ReturnCode) :
    Lockstep (Across (σ := σ) S S') Eq (terminate name norm code) (terminate name norm code) := by
  unfold terminate
  refine Lockstep.seq (lockstep_change (fun _ => rfl) fun _ => rfl) fun _ =>
    lockstep_read.bind ?_
  rintro it _ ⟨-, rfl⟩
  exact Lockstep.ite ((lockstep_log _).seq fun _ => lockstep_report _)
    ((lockstep_log _).seq fun _ => lockstep_report _)

theorem lockstep_adopt (x r : Vec α n) :
    Lockstep (Across (σ := σ) S S') Eq (adopt x r) (adopt x r) :=
  lockstep_change (fun _ => rfl) fun _ => rfl

theorem lockstep_counting {Q : β → γ → Prop} {x : Act α Stats β} {y : Act α Stats γ}
    (h : Lockstep Eq Q x y) :
    Lockstep (Across (σ := σ) S S') Q (counting x) (counting y) := by
  refine h.zoom (fun it _ hi => ?_) fun k _ it _ hk hi => ?_
  · obtain ⟨-, rfl⟩ := hi
    rfl
  · obtain ⟨hs, rfl⟩ := hi
    exact ⟨hs, hk ▸ rfl⟩

variable [Scalar α] (hS : S.Agrees S')

include hS

theorem lockstep_refresh : Lockstep (Across (σ := σ) S S') Eq refresh refresh := by
  unfold refresh
  refine Lockstep.seq (lockstep_change (fun _ => rfl) fun _ => rfl) fun _ =>
    lockstep_read.bind ?_
  rintro it _ ⟨rfl, rfl⟩
  have hr : (it.onto S').problem.residualInto it.u it.fu = it.problem.residualInto it.u it.fu :=
    (hS.residualInto _ _ _ _).symm
  dsimp only [onto] at hr ⊢
  rw [hr]
  refine Lockstep.seq (lockstep_change (fun _ => rfl) fun _ => rfl) fun _ => ?_
  cases (it.problem.residualInto it.u it.fu).fault with
  | none => exact lockstep_pure rfl
  | some e => exact lockstep_raise e

omit hS

/-- Two methods that differ in how they step at most. -/
structure Method.Akin (m m' : Method α n σ) : Prop where
  name : m.name = m'.name
  options : m.options = m'.options
  restart : m.restart = m'.restart

section Steps

variable {m m' : Method α n σ} (hm : Method.Akin m m')

include hm

theorem lockstep_checkTermination :
    Lockstep (Across S S') Eq (checkTermination m) (checkTermination m') := by
  unfold checkTermination
  refine lockstep_read.bind ?_
  rintro it _ ⟨-, rfl⟩
  have hv : (it.onto S').verdict m'.options = it.verdict m.options := by rw [← hm.options]; rfl
  rw [hv]
  cases it.verdict m.options with
  | none => exact lockstep_pure rfl
  | some code =>
    simp only [finish, hm.name, hm.options]
    exact lockstep_terminate _ _ _

theorem lockstep_conclude : Lockstep (Across S S') Eq (conclude m) (conclude m') := by
  unfold conclude
  refine Lockstep.seq (lockstep_change (fun _ => rfl) fun _ => rfl) fun _ =>
    lockstep_read.bind ?_
  rintro it _ ⟨-, rfl⟩
  rw [hm.options]
  exact Lockstep.ite (lockstep_pure rfl)
    ((lockstep_report _).seq fun _ => lockstep_checkTermination hm)

include hS

theorem lockstep_restart : Lockstep (Across S S') Eq (restart m) (restart m') := by
  unfold restart
  rw [hm.restart]
  refine Lockstep.seq (lockstep_change (fun _ => rfl) fun _ => rfl) fun _ => ?_
  refine (lockstep_refresh hS).seq fun _ => ?_
  exact lockstep_change (fun _ => rfl) fun _ => rfl

theorem lockstep_start {P : Problem α n} (hP : P.system = S) :
    Lockstep Eq (Across S S') (start m P) (start m' (P.onto S')) := by
  have hblank : Across S S' (blank P) (blank (P.onto S')) := ⟨hP, rfl⟩
  unfold start
  refine Lockstep.within ((lockstep_refresh hS).seq fun _ => lockstep_read.bind ?_) hblank
  rintro it _ ⟨hs, rfl⟩
  refine lockstep_pure ⟨hs, ?_⟩
  rw [hm.restart]
  rfl

theorem lockstep_reinit (start : Option (List α)) (parameter : Option (Parameter α)) :
    Lockstep (Across S S') Eq (reinit m start parameter) (reinit m' start parameter) := by
  unfold reinit
  refine lockstep_read.bind ?_
  rintro it _ ⟨hs, rfl⟩
  refine (lockstep_ofExcept (Problem.matching_remake hs start parameter)).bind ?_
  rintro P _ ⟨hP, rfl⟩
  refine Lockstep.seq (lockstep_update fun it _ hi => ?_) fun _ => lockstep_restart hS hm
  obtain ⟨-, rfl⟩ := hi
  exact ⟨hP, rfl⟩

end Steps

end Iteration

namespace Session

open Act

/-- Sessions that step, solve and start over in lockstep are served in lockstep. -/
theorem lockstep_serve {R : Session Float n → Session Float n → Prop}
    {Q : Run Float n → Run Float n → Prop}
    {A : Option (Solution Float n) → Option (Solution Float n) → Prop}
    (hstep : Lockstep R Eq step step) (hsolve : Lockstep R Q solve solve)
    (hreinit : ∀ start parameter, Lockstep R Eq (reinit start parameter) (reinit start parameter))
    (hnone : A none none) (hsome : ∀ r r', Q r r' → A (some r.toSolution) (some r'.toSolution))
    (request : Request) : Lockstep R A (serve request) (serve request) := by
  cases request with
  | step => exact hstep.seq fun _ => lockstep_pure hnone
  | solve => exact hsolve.bind fun r r' hr => lockstep_pure (hsome r r' hr)
  | reinit start parameter =>
    have hat : Lockstep R Eq (reinitAt start parameter) (reinitAt start parameter) := by
      unfold reinitAt
      split
      · exact hreinit none parameter
      · exact (lockstep_ofExcept (matching_refl _)).seq fun xs => hreinit (some xs) parameter
    exact hat.seq fun _ => lockstep_pure hnone

end Session

end Rootfinder
