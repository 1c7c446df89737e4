import Rootfinder.Algorithm
import Rootfinder.Proofs.Counters

namespace Rootfinder

variable {α σ : Type} {n : Nat}

namespace Iteration

/-- Ending a run changes its code only. -/
@[simp]
theorem wp_terminate (name : String) (norm : Norm α) (code : ReturnCode) {it : Iteration α n σ}
    {post : Unit → Iteration α n σ → Prop} {broken : Fault α → Iteration α n σ → Prop} :
    (terminate name norm code).wp post broken it ↔
      post () { it with code := code, stopped := true } := by
  unfold terminate
  split <;> simp

/-- A fact that does not depend on the work, the memory, or a verdict of no success. -/
structure Resting (Inv : Iteration α n σ → Prop) : Prop where
  counted : ∀ {it s}, Inv it → s.At it.stats.nsteps → Inv { it with stats := s }
  memory : ∀ {it} m, Inv it → Inv { it with memory := m }
  ended : ∀ {it code}, code ≠ .success ∧ code ≠ .default → Inv it →
    Inv { it with code := code, stopped := true }

/-- A fact that also lasts where trial points are evaluated and taken over; `R x r` is what is known
of a residual `r` that was evaluated at `x`. -/
structure Trying [Scalar α] (R : Vec α n → Vec α n → Prop) (Inv : Iteration α n σ → Prop) :
    Prop extends Resting Inv where
  evaluate : ∀ x it, Inv it → (evaluate x).wp (fun r it' => Inv it' ∧ R x r) (fun _ => Inv) it
  adopt : ∀ {x r}, R x r → (adopt x r).Keeps Inv

/-- A fact that all parts of a step keep, moves to points without a known residual included. -/
structure Stable [Scalar α] (R : Vec α n → Vec α n → Prop) (Inv : Iteration α n σ → Prop) :
    Prop extends Trying R Inv where
  moveTo : ∀ x, (moveTo x).Keeps Inv

namespace Resting

variable {R : Vec α n → Vec α n → Prop} {Inv : Iteration α n σ → Prop} {β : Type}

theorem keeps_terminate (h : Resting Inv) {code : ReturnCode}
    (hc : code ≠ .success ∧ code ≠ .default) (name : String) (norm : Norm α) :
    (terminate name norm code).Keeps Inv := by
  apply Act.keeps_of_wp
  intro it hi
  rw [wp_terminate]
  exact h.ended hc hi

/-- Counted work may tell something about its value. -/
theorem wp_counting (h : Resting Inv) {Q : β → Prop} {x : Act α Stats β} {it : Iteration α n σ}
    (hx : x.wp (fun b s => s.At it.stats.nsteps ∧ Q b) (fun _ => Stats.At it.stats.nsteps) it.stats)
    (hi : Inv it) : (counting x).wp (fun b it' => Inv it' ∧ Q b) (fun _ => Inv) it := by
  unfold counting
  rw [Act.wp_zoom]
  exact hx.mono (fun b s hs => ⟨h.counted hi hs.1, hs.2⟩) (fun _ s hs => h.counted hi hs)

theorem keeps_counting (h : Resting Inv) {x : Act α Stats β}
    (hx : ∀ k, x.Keeps (Stats.At k)) : (counting x).Keeps Inv :=
  fun it hi => h.counted hi (hx it.stats.nsteps it.stats rfl)

theorem keeps_memory (h : Resting Inv) {f : Iteration α n σ → σ} :
    (Act.update fun it => { it with memory := f it } : Act α (Iteration α n σ) Unit).Keeps Inv :=
  Act.keeps_update fun it hi => h.memory (f it) hi

end Resting

structure Moving (A Q : Iteration α n σ → Prop) (broken : Fault α → Iteration α n σ → Prop) :
    Prop where
  before : Resting A
  after : Resting Q
  stays : ∀ {it}, A it → Q it
  raises : ∀ {e it}, Q it → broken e it
  moveTo : ∀ x {it}, A it → (moveTo x).wp (fun _ => Q) broken it

theorem Stable.moving [Scalar α] {R : Vec α n → Vec α n → Prop} {Inv : Iteration α n σ → Prop}
    (h : Stable R Inv) : Moving Inv Inv fun _ => Inv :=
  ⟨h.toResting, h.toResting, id, id, fun x _ hi => (h.moveTo x).wp hi⟩

section Runs

variable [Scalar α] {m : Method α n σ} {P : Iteration α n σ → Prop}
  {broken : Fault α → Iteration α n σ → Prop} {it : Iteration α n σ}

/-- What steps that return lead to is reached by any number of them. -/
theorem wp_drive_of_step (h : ∀ it, P it → (step m).wp (fun _ => P) broken it) (fuel : Nat)
    (hi : P it) : (drive m fuel).wp (fun _ => P) broken it := by
  induction fuel generalizing it with
  | zero => exact hi
  | succ fuel ih =>
    rw [drive, Act.wp_bind, Act.wp_read]
    split
    · exact hi
    · rw [Act.wp_bind]
      exact (h it hi).mono (fun _ _ hx => ih hx) fun _ _ hb => hb

theorem wp_solve_of_step (h : ∀ it, P it → (step m).wp (fun _ => P) broken it) (hi : P it) :
    (solve m).wp (fun _ => P) broken it := by
  rw [solve, Act.wp_bind, Act.wp_read, Act.wp_bind]
  exact (wp_drive_of_step h _ hi).mono (fun _ _ hx => hx) fun _ _ hb => hb

/-- What steps keep is kept by a solve. -/
theorem keeps_solve_of_step (h : (step m).Keeps P) : (solve m).Keeps P :=
  Act.keeps_of_wp fun _ hi => wp_solve_of_step (fun _ hi => h.wp hi) hi

end Runs

end Iteration

open Iteration

variable [Scalar α]

namespace LineSearch

variable {Inv : σ → Prop} {R : Vec α n → Vec α n → Prop}

def Evaluates (R : Vec α n → Vec α n → Prop) (Inv : σ → Prop)
    (residual : Vec α n → Act α σ (Vec α n)) : Prop :=
  ∀ x s, Inv s → (residual x).wp (fun r s' => Inv s' ∧ R x r) (fun _ => Inv) s

namespace Search

variable {s : Search α σ n}

theorem wp_trial (hr : Evaluates R Inv s.residual) (alpha : α) {t : σ} (ht : Inv t) :
    (s.trial alpha).wp (fun b t' => Inv t' ∧ R b.point b.residual) (fun _ => Inv) t := by
  unfold trial
  rw [Act.wp_bind]
  exact (hr _ t ht).mono (fun r t' h => h) (fun _ _ h => h)

theorem better_residual {best : Option (Trial α n)} (hb : ∀ b ∈ best, R b.point b.residual)
    {t : Trial α n} (ht : R t.point t.residual) : ∀ b ∈ s.better best t, R b.point b.residual := by
  intro b hm
  unfold better at hm
  split at hm
  · obtain rfl := Option.some.inj hm
    exact ht
  · exact hb b hm

omit [Scalar α] in
theorem wp_conclude {best : Option (Trial α n)} (hb : ∀ b ∈ best, R b.point b.residual) {t : σ}
    (ht : Inv t) :
    (s.conclude best).wp (fun b t' => Inv t' ∧ R b.point b.residual) (fun _ => Inv) t := by
  cases best with
  | none => exact ht
  | some b => simpa [conclude] using ⟨ht, hb b rfl⟩

/-- Whatever trial ends the search, its residual is one evaluated at its point. -/
theorem wp_trials (hr : Evaluates R Inv s.residual) (fuel : Nat) (alpha : α)
    (best : Option (Trial α n)) (hb : ∀ b ∈ best, R b.point b.residual) {t : σ} (ht : Inv t) :
    (s.trials fuel alpha best).wp (fun b t' => Inv t' ∧ R b.point b.residual)
      (fun _ => Inv) t := by
  induction fuel generalizing alpha best t with
  | zero => exact ht
  | succ fuel ih =>
    have hshort : ∀ (best : Option (Trial α n)), (∀ b ∈ best, R b.point b.residual) →
        ∀ t, Inv t → (if alpha * s.params.reduction < alpha then
          s.trials fuel (alpha * s.params.reduction) best else Act.raise .endless).wp
            (fun b t' => Inv t' ∧ R b.point b.residual) (fun _ => Inv) t := by
      intro best hb t ht
      split
      · exact ih _ best hb ht
      · exact ht
    rw [trials]
    split
    · rw [Act.wp_bind]
      refine (wp_trial hr alpha ht).mono ?_ (fun _ _ h => h)
      intro b t' ⟨ht', hbr⟩
      split
      · exact hshort best hb t' ht'
      · split
        · exact ⟨ht', hbr⟩
        · exact hshort _ (better_residual hb hbr) t' ht'
    · exact wp_conclude hb ht

end Search

theorem wp_search (prm : Params α) {residual : Vec α n → Act α σ (Vec α n)}
    (hr : Evaluates R Inv residual) (norm : Norm α) (start delta : Vec α n) (current : α) {t : σ}
    (ht : Inv t) :
    (search prm residual norm start delta current).wp
      (fun b t' => Inv t' ∧ R b.point b.residual) (fun _ => Inv) t := by
  have hcap : (capped prm delta : Act α σ (Vec α n)).Keeps Inv := by
    unfold capped
    split
    · exact Act.keeps_raise _
    · exact Act.keeps_pure _
    · refine Act.Keeps.ite (Act.keeps_pure _) (Act.Keeps.ite ?_ (Act.keeps_pure _))
      exact (Act.keeps_log _).bind fun _ => Act.keeps_pure _
  unfold search
  rw [Act.wp_bind]
  refine (hcap.wp ht).mono (fun d t' ht' => ?_) (fun _ _ h => h)
  exact Search.wp_trials hr _ _ none (by simp) ht'

end LineSearch

variable {R : Vec α n → Vec α n → Prop}

namespace Newton

variable (search : Option (LineSearch.Params α)) (l : Linearization α) (o : Options α)
  {A Q Inv : Iteration α n Unit → Prop} {broken : Fault α → Iteration α n Unit → Prop}
  {it : Iteration α n Unit}

/-- Up to where the step is followed there is work only. The linear solve takes products of the
Jacobian, so what these count matters there. -/
theorem wp_advance_followed (hA : Resting A) (hstays : ∀ {z}, A z → Q z)
    (hraises : ∀ {e z}, A z → broken e z)
    (hfollow : ∀ delta {z}, A z → (follow search o delta).wp (fun _ => Q) broken z) (hi : A it) :
    (advance search l o).wp (fun _ => Q) broken it := by
  have hquit : ∀ {code z}, code ≠ .success ∧ code ≠ .default → A z →
      (quit search o code).wp (fun _ => Q) broken z := fun hc hz =>
    ((hA.keeps_terminate hc _ _).wp hz).mono (fun _ _ => hstays) fun _ _ => hraises
  unfold advance
  rw [Act.wp_bind, Act.wp_read, Act.wp_bind]
  refine (hA.wp_counting (Q := Linearized.Steady) (Jacobian.wp_build _ _ _ _ _ rfl) hi).mono
    (fun J z hz => ?_) fun _ _ => hraises
  obtain ⟨hz, hJ⟩ := hz
  rw [Act.wp_bind, Act.wp_attempt]
  refine ((hA.keeps_counting fun k => LinearSolver.keeps_solve _ hJ _ _ _).wp hz).mono
    (fun delta z hz => ?_) fun e z hz => ?_
  · simp only
    split
    · exact hfollow delta hz
    · exact hquit (by decide) hz
  · simp only
    split
    · rw [Act.wp_bind, Act.wp_log]
      exact hquit (by decide) hz
    · exact hraises hz

theorem keeps_follow_searched (h : Trying R Inv) (prm : LineSearch.Params α) (delta : Vec α n) :
    (follow (some prm) o delta).Keeps Inv := by
  have hsearch : ∀ it, Inv it → (Act.attempt (searched o prm delta)).wp
      (fun r it' => Inv it' ∧ ∀ t, r = .ok t → R t.point t.residual) (fun _ => Inv) it := by
    intro it hi
    rw [Act.wp_attempt, searched, Act.wp_bind, Act.wp_read]
    refine (LineSearch.wp_search prm h.evaluate o.norm it.u delta _ hi).mono ?_ ?_
    · intro t it' h'
      obtain ⟨hi', ht⟩ := h'
      exact ⟨hi', fun t' he => by cases he; exact ht⟩
    · intro e it' hi'
      exact ⟨hi', fun t' he => by cases he⟩
  refine Act.keeps_read.bind fun it => Act.Keeps.bind_of hsearch fun r hr => ?_
  cases r with
  | ok t => exact h.adopt (hr t rfl)
  | error e =>
    refine Act.Keeps.ite ?_ (Act.keeps_raise e)
    exact (Act.keeps_log _).bind fun _ => h.keeps_terminate (by decide) _ _

theorem keeps_advance_searched (h : Trying R Inv) (prm : LineSearch.Params α) :
    (advance (some prm) l o).Keeps Inv :=
  Act.keeps_of_wp fun _ hi => wp_advance_followed _ l o h.toResting id id
    (fun delta _ hz => (keeps_follow_searched o h prm delta).wp hz) hi

theorem wp_advance_moving (h : Moving A Q broken) (hi : A it) :
    (advance none l o).wp (fun _ => Q) broken it := by
  refine wp_advance_followed _ l o h.before h.stays (fun hz => h.raises (h.stays hz))
    (fun delta z hz => ?_) hi
  rw [follow, Act.wp_bind, Act.wp_read]
  exact h.moveTo _ hz

end Newton

namespace Secant

variable {ε : Type} {A Q Inv : Iteration α n (Memory ε) → Prop}
  {broken : Fault α → Iteration α n (Memory ε) → Prop} {it : Iteration α n (Memory ε)}
  (plan : Plan α ε)

omit [Scalar α] in
theorem keeps_registerReset (h : Resting Inv) : (registerReset plan).Keeps Inv := by
  unfold registerReset
  refine h.keeps_memory.bind fun _ => Act.keeps_read.bind fun it => Act.Keeps.ite ?_ ?_
  · exact (h.keeps_terminate (by decide) _ _).bind fun _ => Act.keeps_pure _
  · exact (Act.keeps_log _).bind fun _ => h.keeps_memory.bind fun _ => Act.keeps_pure _

theorem wp_follow_moving (h : Moving A Q broken) (delta : Vec α n)
    (updated : ε → Vec α n → Vec α n → Option ε) (hi : A it) :
    (follow plan delta updated).wp (fun _ => Q) broken it := by
  have hreset : ∀ {z}, Q z → (discard (registerReset plan)).wp (fun _ => Q) broken z := by
    intro z hz
    have hkeeps : (discard (registerReset plan)).Keeps Q :=
      (keeps_registerReset plan h.after).bind fun _ => Act.keeps_pure _
    exact (hkeeps.wp hz).mono (fun _ _ h => h) fun _ _ => h.raises
  rw [follow, Act.wp_bind, Act.wp_read]
  split
  · rw [Act.wp_bind]
    refine (h.moveTo _ hi).mono (fun _ z hz => ?_) fun _ _ hb => hb
    rw [Act.wp_bind, Act.wp_read]
    split
    · exact h.after.memory _ hz
    · exact hreset hz
  · exact hreset (h.stays hi)

end Secant

theorem Klement.wp_advance_moving {A Q : Iteration α n (Secant.Memory (Vec α n)) → Prop}
    {broken : Fault α → Iteration α n (Secant.Memory (Vec α n)) → Prop}
    {it : Iteration α n (Secant.Memory (Vec α n))} (h : Moving A Q broken) (limit : Nat)
    (o : Options α) (hi : A it) : (advance limit o).wp (fun _ => Q) broken it := by
  have hpropose : ∀ {z}, A z → (propose limit o).wp (fun _ => Q) broken z :=
    fun hz => Secant.wp_follow_moving _ h _ _ hz
  rw [advance, Act.wp_bind, Act.wp_read]
  split
  · rw [Act.wp_bind]
    refine ((Secant.keeps_registerReset _ h.before).wp hi).mono (fun goOn z hz => ?_)
      fun _ _ hz => h.raises (h.stays hz)
    cases goOn with
    | true => exact hpropose hz
    | false => exact h.stays hz
  · exact hpropose hi

theorem Broyden.wp_advance_moving {A Q : Iteration α n (Secant.Memory (Mat α n n)) → Prop}
    {broken : Fault α → Iteration α n (Secant.Memory (Mat α n n)) → Prop}
    {it : Iteration α n (Secant.Memory (Mat α n n))} (h : Moving A Q broken) (limit : Nat)
    (o : Options α) (hi : A it) : (advance limit o).wp (fun _ => Q) broken it :=
  Secant.wp_follow_moving _ h _ _ hi

namespace TrustRegion

variable {Inv : Iteration α n (Memory α n) → Prop} (h : Trying R Inv) (scheme : Scheme)
  (prm : Params α) (l : Linearization α) (o : Options α)

/-- The dogleg step is found, unless the radius is too large. -/
theorem wp_doglegStep {J : Mat α n n} {fu : Vec α n} {radius : α} {newton : Option (Vec α n)}
    {post : Vec α n → σ → Prop} {broken : Fault α → σ → Prop} {s : σ}
    (hok : post (dogleg J fu radius newton) s)
    (hraise : bends J fu radius newton = true → tooLarge radius = true → broken .tooLarge s) :
    (Act.ofExcept (doglegStep J fu radius newton)).wp post broken s := by
  obtain h | ⟨h, hb, hr⟩ := doglegStep_cases J fu radius newton
  · rw [h, Act.wp_ofExcept_ok]
    exact hok
  · rw [h, Act.wp_ofExcept_error]
    exact hraise hb hr

include h

theorem keeps_remembering {β : Type} (x : Act α (Memory α n) β) : (remembering x).Keeps Inv :=
  Act.keeps_zoom x fun m _ hi => h.memory m hi

theorem keeps_jacobian : (jacobian l).Keeps Inv := by
  unfold jacobian
  refine Act.keeps_read.bind fun it => ?_
  split
  · exact Act.keeps_pure _
  · refine (h.keeps_counting fun k => Jacobian.keeps_dense _ _ _ _).bind fun J => ?_
    exact h.keeps_memory.bind fun _ => Act.keeps_pure _

theorem keeps_newtonStep (J : Mat α n n) : (newtonStep l J).Keeps Inv := by
  unfold newtonStep
  refine Act.keeps_read.bind fun it => ?_
  have hsolve := fun k : Int => LinearSolver.keeps_solve (k := k) l.solver
    (Jacobian.steady_dense J) (-it.fu) it.u.toList it.problem.parameter
  refine (h.keeps_counting hsolve).attempt.bind fun r => ?_
  split
  · exact Act.keeps_pure _
  · exact Act.Keeps.ite (Act.keeps_pure _) (Act.keeps_raise _)

/-- Bastin's rule writes the iterate before the step is accepted by the others. -/
theorem keeps_updateBastin (rho : α) (s : Vec α n) {trial fuTrial : Vec α n}
    (ht : R trial fuTrial) : (updateBastin prm l rho s trial fuTrial).Keeps Inv := by
  unfold updateBastin
  refine (Act.keeps_ofExcept _).bind fun kept => Act.Keeps.ite ?_ ?_
  · exact (keeps_remembering h _).bind fun _ => Act.keeps_pure _
  · refine (keeps_remembering h _).bind fun _ => Act.keeps_read.bind fun before => ?_
    refine (h.adopt ht).bind fun _ => Act.keeps_read.bind fun it => ?_
    refine (h.keeps_counting fun k => Jacobian.keeps_dense _ _ _ _).bind fun J => ?_
    exact (keeps_remembering h _).bind fun _ => Act.keeps_pure _

theorem keeps_update (rho : α) (s : Vec α n) {trial fuTrial : Vec α n} (ht : R trial fuTrial) :
    (update scheme prm l rho s trial fuTrial).Keeps Inv := by
  cases scheme with
  | simple => exact keeps_remembering h _
  | nlsolve => exact keeps_remembering h _
  | bastin => exact keeps_updateBastin h prm l rho s ht
  | fan => exact Act.keeps_read.bind fun _ => keeps_remembering h _

theorem keeps_attemptStep (J : Mat α n n) (s : Vec α n) :
    (attemptStep scheme prm l o J s).Keeps Inv := by
  unfold attemptStep
  refine Act.keeps_read.bind fun before => ?_
  refine Act.Keeps.bind_of (fun it hi => h.evaluate (before.u + s) it hi) ?_
  intro fuTrial ht
  refine (keeps_update h scheme prm l _ s ht).bind fun accepted => ?_
  have hsettle : ∀ it : Iteration α n (Memory α n), (if exhausted prm it.memory then do
      Act.log (.shrankRepeatedly (name scheme) it.memory.shrinks)
      Iteration.terminate (name scheme) o.norm .shrinkThresholdExceeded
      else pure () : Act α (Iteration α n (Memory α n)) Unit).Keeps Inv := by
    intro it
    refine Act.Keeps.ite ?_ (Act.keeps_pure _)
    exact (Act.keeps_log _).bind fun _ => h.keeps_terminate (by decide) _ _
  refine Act.Keeps.ite ?_ (Act.keeps_read.bind hsettle)
  refine (h.adopt ht).bind fun _ => (keeps_remembering h _).bind fun _ => ?_
  exact Act.keeps_read.bind hsettle

theorem keeps_advance : (advance scheme prm l o).Keeps Inv := by
  unfold advance
  refine (keeps_jacobian h l).bind fun J => (keeps_newtonStep h l J).bind fun newton => ?_
  refine Act.keeps_read.bind fun it => (Act.keeps_ofExcept _).bind fun s => ?_
  refine Act.Keeps.ite ?_ (h.keeps_terminate (by decide) _ _)
  exact keeps_attemptStep h scheme prm l o J _

end TrustRegion

namespace Algorithm

/-- The algorithms that solve; a replayed script may show any residual. -/
def BuiltIn : Algorithm α → Prop
  | .replay _ => False
  | _ => True

@[simp]
theorem method_options (a : Algorithm α) (o : Options α) : (a.method o n).options = o := by
  cases a <;> rfl

/-- The methods that move to a point before its residual is known. -/
def Moves : Algorithm α → Prop
  | .newton none _ | .klement _ | .broyden _ => True
  | _ => False

theorem wp_advance_moving {a : Algorithm α} (ha : a.Moves) (o : Options α)
    {A Q : Iteration α n (a.Memory n) → Prop}
    {broken : Fault α → Iteration α n (a.Memory n) → Prop} (h : Moving A Q broken)
    {it : Iteration α n (a.Memory n)} (hi : A it) :
    (a.method o n).advance.wp (fun _ => Q) broken it := by
  cases a with
  | newton search l =>
    cases search with
    | none => exact Newton.wp_advance_moving l o h hi
    | some prm => exact ha.elim
  | trustRegion scheme prm l => exact ha.elim
  | klement limit => exact Klement.wp_advance_moving h limit o hi
  | broyden limit => exact Broyden.wp_advance_moving h limit o hi
  | replay script => exact ha.elim

/-- The other methods that solve evaluate at trial points only. -/
theorem keeps_advance_trying {a : Algorithm α} (ha : a.BuiltIn) (hm : ¬ a.Moves) (o : Options α)
    {Inv : Iteration α n (a.Memory n) → Prop} (h : Trying R Inv) :
    (a.method o n).advance.Keeps Inv := by
  cases a with
  | newton search l =>
    cases search with
    | none => exact absurd trivial hm
    | some prm => exact Newton.keeps_advance_searched l o h prm
  | trustRegion scheme prm l => exact TrustRegion.keeps_advance h scheme prm l o
  | klement limit => exact absurd trivial hm
  | broyden limit => exact absurd trivial hm
  | replay script => exact ha.elim

/-- A fact about the parts of a step is one about the steps of every method that solves. -/
theorem keeps_advance {a : Algorithm α} (ha : a.BuiltIn) (o : Options α)
    {Inv : Iteration α n (a.Memory n) → Prop} (h : Stable R Inv) :
    (a.method o n).advance.Keeps Inv := by
  by_cases hm : a.Moves
  · exact Act.keeps_of_wp fun _ hi => wp_advance_moving hm o h.moving hi
  · exact keeps_advance_trying ha hm o h.toTrying

end Algorithm

end Rootfinder
