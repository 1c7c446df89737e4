import Rootfinder.Proofs.Endings
import Rootfinder.Proofs.Lockstep
import Rootfinder.Proofs.Silence

namespace Rootfinder

variable {α β γ σ : Type} {n : Nat}

namespace Act

def hears (x : Act α σ β) (post : β → σ → List (Hook α) → Prop) (s : σ) : Prop :=
  ∀ b, (x.run s).result = .ok b → post b (x.run s).state (Event.hooks (x.run s).trace)

section Rules

variable {s : σ} {post : β → σ → List (Hook α) → Prop}

theorem hears.mono {x : Act α σ β} {post' : β → σ → List (Hook α) → Prop} (h : x.hears post s)
    (hp : ∀ b s hs, post b s hs → post' b s hs) : x.hears post' s :=
  fun b hb => hp b _ _ (h b hb)

@[simp]
theorem hears_pure (b : β) : (pure b : Act α σ β).hears post s ↔ post b s [] :=
  ⟨fun h => h b rfl, fun h _ hc => Except.ok.inj hc ▸ h⟩

@[simp]
theorem hears_report {post : Unit → σ → List (Hook α) → Prop} (h : Hook α) :
    (report (.hook h) : Act α σ Unit).hears post s ↔ post () s [h] :=
  ⟨fun hp => hp () rfl, fun hp _ _ => hp⟩

theorem hears_bind (x : Act α σ γ) (f : γ → Act α σ β) :
    (x >>= f).hears post s ↔ x.hears (fun c s' hs =>
      (f c).hears (fun b s'' hs' => post b s'' (hs ++ hs')) s') s := by
  have h : (x >>= f).shows (fun b s' t => post b s' (Event.hooks t)) s ↔ _ := shows_bind x f
  simp only [Event.hooks_append] at h
  exact h

/-- Behind a computation that calls no hook, those of the next one are all that is heard. -/
theorem Silent.hears_bind {x : Act α σ γ} (hx : x.Silent) (f : γ → Act α σ β) :
    (x >>= f).hears post s ↔ x.wp (fun c => (f c).hears post) (fun _ _ => True) s := by
  rw [Act.hears_bind]
  unfold hears wp
  rw [hx s]
  cases (x.run s).result <;> simp

theorem hears.returning {x : Act α σ β} (h : x.hears post s) :
    x.hears (fun b s' hs => x.Returns s b s' ∧ post b s' hs) s :=
  fun b hb => ⟨⟨hb, rfl⟩, h b hb⟩

theorem Silent.hears_iff {x : Act α σ β} (hx : x.Silent) : x.hears post s ↔
    x.wp (fun b s' => post b s' []) (fun _ _ => True) s := by
  unfold hears wp
  rw [hx s]
  cases (x.run s).result <;> simp

end Rules

end Act

open Act

namespace Iteration

def closing (norm : Norm α) (steps : Int) (it : Iteration α n σ) : Hook α :=
  if it.code.isSuccess then .accept steps it.u.toList (norm.of it.fu)
  else .failure steps it.u.toList (norm.of it.fu)

structure Closed (norm : Norm α) (it : Iteration α n σ) (hs : List (Hook α)) : Prop where
  stopped : it.stopped = true
  hooks : hs = [it.closing norm it.stats.nsteps]

/-- A run goes on unheard, or has been closed. -/
def Heard (norm : Norm α) (it : Iteration α n σ) (hs : List (Hook α)) : Prop :=
  it.terminated = false ∧ hs = [] ∨ Closed norm it hs

/-- A part of a step that reports in order, and after which a running iteration goes on unheard or
has been closed. -/
structure Modest (norm : Norm α) (x : Act α (Iteration α n σ) β) : Prop where
  orderly : x.Orderly
  hears : ∀ it, it.terminated = false → x.hears (fun _ => Heard norm) it

structure Quiet (x : Act α (Iteration α n σ) β) : Prop where
  works : x.Works
  running : x.Keeps fun it => it.terminated = false

theorem hears_terminate (name : String) (norm : Norm α) (code : ReturnCode)
    {it : Iteration α n σ} {post : Unit → Iteration α n σ → List (Hook α) → Prop} :
    (terminate name norm code).hears post it ↔
      post () { it with code := code, stopped := true }
        [closing norm it.stats.nsteps { it with code := code, stopped := true }] := by
  rw [terminate, (silent_update _).hears_bind, wp_update, silent_read.hears_bind, wp_read]
  dsimp only [closing]
  split
  · rw [(silent_log _).hears_bind, wp_log, hears_report]
  · rw [(silent_log _).hears_bind, wp_log, hears_report]

theorem orderly_terminate (name : String) (norm : Norm α) (code : ReturnCode) :
    (terminate name norm code : Act α (Iteration α n σ) Unit).Orderly := by
  intro it
  unfold terminate
  cases hcode : code.isSuccess with
  | true => exact ⟨rfl, List.forall_mem_singleton.mpr rfl⟩
  | false => exact ⟨rfl, List.forall_mem_singleton.mpr rfl⟩

theorem modest_terminate (name : String) (norm : Norm α) (code : ReturnCode) :
    Modest norm (terminate name norm code : Act α (Iteration α n σ) Unit) where
  orderly := orderly_terminate name norm code
  hears it _ := by
    rw [hears_terminate]
    exact .inr ⟨rfl, rfl⟩

section Rules

variable {norm : Norm α} {x : Act α (Iteration α n σ) β} {f : β → Act α (Iteration α n σ) γ}

theorem Quiet.modest (hx : Quiet x) : Modest norm x where
  orderly := hx.works.orderly
  hears it hrun := by
    rw [hx.works.silent.hears_iff]
    exact (hx.running.wp hrun).mono (fun _ _ h => .inl ⟨h, rfl⟩) fun _ _ _ => trivial

/-- The next part may rely on what a quiet part tells about its value. -/
theorem Quiet.modest_of {R : β → Prop} (hx : Quiet x)
    (hr : ∀ it, x.wp (fun b _ => R b) (fun _ _ => True) it) (hf : ∀ b, R b → Modest norm (f b)) :
    Modest norm (x >>= f) where
  orderly := hx.works.orderly.bind_of hr fun b hb => (hf b hb).orderly
  hears it hrun := by
    rw [hx.works.silent.hears_bind]
    have hkept : x.wp (fun _ it' => it'.terminated = false) (fun _ _ => True) it :=
      (hx.running.wp hrun).mono (fun _ _ h => h) fun _ _ _ => trivial
    exact (hkept.and (hr it)).mono (fun b it' h => (hf b h.2).hears it' h.1) fun _ _ h => h

theorem Quiet.modest_bind (hx : Quiet x) (hf : ∀ b, Modest norm (f b)) : Modest norm (x >>= f) :=
  hx.modest_of (R := fun _ => True)
    (fun _ => wp_of_forall _ (fun _ _ => trivial) fun _ _ => trivial) fun b _ => hf b

theorem Modest.ite {c : Prop} [Decidable c] {y : Act α (Iteration α n σ) β} (hx : Modest norm x)
    (hy : Modest norm y) : Modest norm (if c then x else y) := by
  split
  · exact hx
  · exact hy

theorem Quiet.bind (hx : Quiet x) (hf : ∀ b, Quiet (f b)) : Quiet (x >>= f) :=
  ⟨hx.works.bind fun b => (hf b).works, hx.running.bind fun b => (hf b).running⟩

theorem Quiet.ite {c : Prop} [Decidable c] {y : Act α (Iteration α n σ) β} (hx : Quiet x)
    (hy : Quiet y) : Quiet (if c then x else y) := by
  split
  · exact hx
  · exact hy

theorem Quiet.attempt (hx : Quiet x) : Quiet (attempt x) := ⟨hx.works.attempt, hx.running.attempt⟩

theorem quiet_pure (b : β) : Quiet (pure b : Act α (Iteration α n σ) β) :=
  ⟨works_pure b, keeps_pure b⟩

theorem quiet_read : Quiet (read : Act α (Iteration α n σ) _) := ⟨works_read, keeps_read⟩

theorem quiet_raise (e : Fault α) : Quiet (raise e : Act α (Iteration α n σ) β) :=
  ⟨works_raise e, keeps_raise e⟩

theorem quiet_log {note : Note α} (h : note.Working) :
    Quiet (log note : Act α (Iteration α n σ) Unit) := ⟨works_log h, keeps_log note⟩

theorem quiet_ofExcept (r : Except (Fault α) β) :
    Quiet (ofExcept r : Act α (Iteration α n σ) β) := ⟨works_ofExcept r, keeps_ofExcept r⟩

theorem quiet_update {g : Iteration α n σ → Iteration α n σ}
    (h : ∀ it, (g it).terminated = it.terminated) :
    Quiet (update g : Act α (Iteration α n σ) Unit) :=
  ⟨works_update g, keeps_update fun it hrun => (h it).trans hrun⟩

theorem quiet_counting {x : Act α Stats β} (hx : x.Works) :
    Quiet (counting x : Act α (Iteration α n σ) β) :=
  ⟨works_counting hx, keeps_zoom x fun _ _ h => h⟩

theorem quiet_adopt (x r : Vec α n) : Quiet (adopt x r : Act α (Iteration α n σ) Unit) :=
  quiet_update fun _ => rfl

theorem quiet_moveTo (x : Vec α n) : Quiet (moveTo x : Act α (Iteration α n σ) Unit) := by
  unfold moveTo refresh
  refine Quiet.bind (quiet_update fun _ => rfl) fun _ => ?_
  refine Quiet.bind (quiet_update fun _ => rfl) fun _ => quiet_read.bind fun _ => ?_
  refine Quiet.bind (quiet_update fun _ => rfl) fun _ => ?_
  split
  · exact quiet_pure _
  · exact quiet_raise _

variable [Scalar α]

theorem quiet_evaluate (x : Vec α n) :
    Quiet (evaluate x : Act α (Iteration α n σ) (Vec α n)) := by
  unfold evaluate
  refine Quiet.bind (quiet_update fun _ => rfl) fun _ => ?_
  exact quiet_read.bind fun _ => quiet_ofExcept _

end Rules

end Iteration

open Iteration

variable [Scalar α]

namespace Newton

variable (search : Option (LineSearch.Params α)) (l : Linearization α) (o : Options α)

theorem quiet_searched (prm : LineSearch.Params α) (delta : Vec α n) :
    Quiet (searched o prm delta) := by
  refine quiet_read.bind fun it => ⟨LineSearch.works_search prm works_evaluate _ _ _ _, ?_⟩
  have hevaluates : LineSearch.Evaluates (fun _ _ : Vec α n => True)
      (fun it : Iteration α n Unit => it.terminated = false) evaluate := fun x s hs =>
    ((quiet_evaluate x).running.wp hs).mono (fun _ _ h => ⟨h, trivial⟩) fun _ _ h => h
  refine keeps_of_wp fun it' hrun => ?_
  exact (LineSearch.wp_search prm hevaluates _ _ _ _ hrun).mono (fun _ _ h => h.1) fun _ _ h => h

theorem modest_follow (delta : Vec α n) : Modest o.norm (follow search o delta) := by
  refine quiet_read.modest_bind fun it => ?_
  cases search with
  | none => exact (quiet_moveTo _).modest
  | some prm =>
    refine (quiet_searched o prm delta).attempt.modest_bind fun r => ?_
    cases r with
    | ok t => exact (quiet_adopt _ _).modest
    | error e =>
      refine Modest.ite ?_ (quiet_raise _).modest
      exact (quiet_log ⟨rfl, rfl⟩).modest_bind fun _ => modest_terminate _ _ _

theorem modest_advance : Modest o.norm (advance search l o : Act α (Iteration α n Unit) Unit) := by
  refine quiet_read.modest_bind fun it => ?_
  refine (quiet_counting (Jacobian.works_build _ _ _ _ _)).modest_of (R := Linearized.Works)
    (fun it' => ?_) fun J hJ => ?_
  · rw [counting, wp_zoom]
    exact Jacobian.wp_build_works _ _ _ _ _ _
  · refine (quiet_counting (LinearSolver.works_solve _ hJ _ _ _)).attempt.modest_bind fun r => ?_
    cases r with
    | ok delta => exact Modest.ite (modest_follow search o delta) (modest_terminate _ _ _)
    | error e =>
      refine Modest.ite ?_ (quiet_raise _).modest
      exact (quiet_log ⟨rfl, rfl⟩).modest_bind fun _ => modest_terminate _ _ _

end Newton

namespace TrustRegion

variable (scheme : Scheme) (prm : Params α) (l : Linearization α) (o : Options α)

omit [Scalar α] in
theorem quiet_remembering {x : Act α (Memory α n) β} (hx : x.Works) : Quiet (remembering x) :=
  ⟨hx.zoom _ _, keeps_zoom x fun _ _ h => h⟩

omit [Scalar α] in
theorem works_expand (f : α → Memory α n → Memory α n) : (expand prm f).Works :=
  (works_ofExcept _).bind fun _ => works_update _

theorem works_updateSimple (rho size : α) :
    (updateSimple prm rho size : Act α (Memory α n) Bool).Works := by
  have hgrow : (expandSimple prm rho size : Act α (Memory α n) Unit).Works :=
    (works_ofExcept _).bind fun _ => works_read.bind fun _ =>
      Works.ite (works_expand prm _) (works_pure _)
  have hjudge : (do
      let accepted ← accepts prm rho
      if accepted then expandSimple prm rho size
      pure accepted : Act α (Memory α n) Bool).Works :=
    (works_ofExcept _).bind fun _ => Works.ite (hgrow.bind fun _ => works_pure _) (works_pure _)
  refine (works_ofExcept _).bind fun _ => Works.ite ?_ ?_
  · exact (works_update _).bind fun _ => hjudge
  · exact (works_update _).bind fun _ => hjudge

theorem works_updateNlsolve (rho size : α) :
    (updateNlsolve prm rho size : Act α (Memory α n) Bool).Works := by
  have hgrow : (expandNlsolve prm rho size : Act α (Memory α n) Unit).Works :=
    (works_ofExcept _).bind fun _ => Works.ite (works_expand prm _)
      (Works.ite (works_expand prm _) (works_pure _))
  refine (works_ofExcept _).bind fun _ => Works.ite ?_ ?_
  · exact (works_update _).bind fun _ => works_ofExcept _
  · exact (works_update _).bind fun _ => hgrow.bind fun _ => works_ofExcept _

theorem works_updateFan (rho : α) (fu : Vec α n) :
    (updateFan prm rho fu : Act α (Memory α n) Bool).Works := by
  have hscale : (scaleFan prm rho : Act α (Memory α n) Unit).Works :=
    (works_ofExcept _).bind fun _ => Works.ite (works_update _) ((works_update _).bind fun _ =>
      (works_ofExcept _).bind fun _ => Works.ite (works_expand prm _) (works_pure _))
  refine hscale.bind fun _ => (works_ofExcept _).bind fun _ => Works.ite ?_ (works_pure _)
  exact (works_update _).bind fun _ => works_pure _

theorem works_adjustBastin (ratio size : α) :
    (adjustBastin prm ratio size : Act α (Memory α n) Unit).Works :=
  (works_ofExcept _).bind fun _ => Works.ite (works_expand prm _) ((works_ofExcept _).bind
    fun _ => Works.ite (works_update _) (works_pure _))

theorem quiet_updateBastin (rho : α) (s trial fuTrial : Vec α n) :
    Quiet (updateBastin prm l rho s trial fuTrial) := by
  refine (quiet_ofExcept _).bind fun _ => Quiet.ite ?_ ?_
  · exact (quiet_remembering (works_update _)).bind fun _ => quiet_pure _
  · refine (quiet_remembering (works_update _)).bind fun _ => quiet_read.bind fun _ => ?_
    refine (quiet_adopt _ _).bind fun _ => quiet_read.bind fun _ => ?_
    refine (quiet_counting (Jacobian.works_dense _ _ _ _)).bind fun _ => ?_
    refine (quiet_remembering ?_).bind fun _ => quiet_pure _
    exact (works_update _).bind fun _ => works_adjustBastin prm _ _

theorem quiet_update (rho : α) (s trial fuTrial : Vec α n) :
    Quiet (update scheme prm l rho s trial fuTrial) := by
  cases scheme with
  | simple => exact quiet_remembering (works_updateSimple prm _ _)
  | nlsolve => exact quiet_remembering (works_updateNlsolve prm _ _)
  | bastin => exact quiet_updateBastin prm l _ _ _ _
  | fan => exact quiet_read.bind fun _ => quiet_remembering (works_updateFan prm _ _)

theorem modest_attemptStep (J : Mat α n n) (s : Vec α n) :
    Modest o.norm (attemptStep scheme prm l o J s) := by
  have hend : Modest o.norm (do
      let it ← Act.read
      if exhausted prm it.memory then
        Act.log (.shrankRepeatedly (name scheme) it.memory.shrinks)
        Iteration.terminate (name scheme) o.norm .shrinkThresholdExceeded :
          Act α (Iteration α n (Memory α n)) Unit) := by
    refine quiet_read.modest_bind fun _ => Modest.ite ?_ (quiet_pure _).modest
    exact (quiet_log ⟨rfl, rfl⟩).modest_bind fun _ => modest_terminate _ _ _
  refine quiet_read.modest_bind fun _ => (quiet_evaluate _).modest_bind fun _ => ?_
  refine (quiet_update scheme prm l _ _ _ _).modest_bind fun _ => Modest.ite ?_ hend
  refine (quiet_adopt _ _).modest_bind fun _ => ?_
  exact (quiet_remembering (works_update _)).modest_bind fun _ => hend

theorem quiet_jacobian : Quiet (jacobian l : Act α (Iteration α n (Memory α n)) _) := by
  refine quiet_read.bind fun it => ?_
  cases it.memory.jacobian with
  | some J => exact quiet_pure _
  | none =>
    refine (quiet_counting (Jacobian.works_dense _ _ _ _)).bind fun _ => ?_
    exact Quiet.bind (Iteration.quiet_update fun _ => rfl) fun _ => quiet_pure _

theorem quiet_newtonStep (J : Mat α n n) :
    Quiet (newtonStep l J : Act α (Iteration α n (Memory α n)) _) := by
  have hJ : (Linearized.dense J).Works := fun _ => works_pure _
  refine quiet_read.bind fun it => ?_
  refine (quiet_counting (LinearSolver.works_solve _ hJ _ _ _)).attempt.bind fun r => ?_
  cases r with
  | ok s => exact quiet_pure _
  | error e => exact Quiet.ite (quiet_pure _) (quiet_raise _)

theorem modest_advance :
    Modest o.norm (advance scheme prm l o : Act α (Iteration α n (Memory α n)) Unit) := by
  refine (quiet_jacobian l).modest_bind fun J => (quiet_newtonStep l J).modest_bind fun _ => ?_
  refine quiet_read.modest_bind fun _ => (quiet_ofExcept _).modest_bind fun s => ?_
  exact Modest.ite (modest_attemptStep scheme prm l o J s) (modest_terminate _ _ _)

end TrustRegion

namespace Secant

variable {ε : Type} (plan : Plan α ε)

omit [Scalar α] in
/-- A reset lets the run go on unheard, or closes it. -/
theorem hears_registerReset {it : Iteration α n (Memory ε)} (hrun : it.terminated = false) :
    (registerReset plan).hears (fun goOn it' hs =>
      it'.terminated = false ∧ hs = [] ∨ goOn = false ∧ Closed plan.norm it' hs) it := by
  rw [registerReset, (silent_update _).hears_bind, wp_update, silent_read.hears_bind, wp_read]
  split
  · rw [Act.hears_bind, hears_terminate, hears_pure]
    exact .inr ⟨rfl, rfl, rfl⟩
  · rw [(silent_log _).hears_bind, wp_log, (silent_update _).hears_bind, wp_update, hears_pure]
    exact .inl ⟨hrun, rfl⟩

omit [Scalar α] in
theorem orderly_registerReset :
    (registerReset plan : Act α (Iteration α n (Memory ε)) Bool).Orderly := by
  refine (works_update _).orderly.bind fun _ => works_read.orderly.bind fun _ => Orderly.ite ?_ ?_
  · exact (orderly_terminate _ _ _).bind fun _ => (works_pure _).orderly
  · exact ((works_log ⟨rfl, rfl⟩).bind fun _ => (works_update _).bind fun _ =>
      works_pure _).orderly

omit [Scalar α] in
theorem modest_discard :
    Modest plan.norm (discard (registerReset plan) : Act α (Iteration α n (Memory ε)) Unit) := by
  have hdiscard : (discard (registerReset plan) : Act α (Iteration α n (Memory ε)) Unit) =
      registerReset plan >>= fun _ => pure () := rfl
  rw [hdiscard]
  refine ⟨(orderly_registerReset plan).bind fun _ => (works_pure _).orderly, fun it hrun => ?_⟩
  rw [Act.hears_bind]
  refine (hears_registerReset plan hrun).mono fun _ it' hs h => ?_
  rw [hears_pure, List.append_nil]
  exact h.imp_right And.right

theorem modest_follow (delta : Vec α n) (updated : ε → Vec α n → Vec α n → Option ε) :
    Modest plan.norm (follow plan delta updated) := by
  refine quiet_read.modest_bind fun it => Modest.ite ?_ (modest_discard plan)
  refine (quiet_moveTo _).modest_bind fun _ => quiet_read.modest_bind fun it' => ?_
  split
  · exact Quiet.modest (quiet_update fun _ => rfl)
  · exact modest_discard plan

end Secant

theorem Klement.modest_advance (limit : Nat) (o : Options α) :
    Modest o.norm (advance limit o : Act α (Iteration α n _) Unit) := by
  have hpropose : Modest o.norm (propose limit o : Act α (Iteration α n _) Unit) :=
    quiet_read.modest_bind fun _ => Secant.modest_follow (plan limit o n) _ _
  refine quiet_read.modest_bind fun it => Modest.ite ⟨?_, fun it' hrun => ?_⟩ hpropose
  · exact (Secant.orderly_registerReset _).bind fun _ =>
      Orderly.ite hpropose.orderly (works_pure _).orderly
  rw [Act.hears_bind]
  refine (Secant.hears_registerReset (plan limit o n) hrun).mono fun goOn x hs h => ?_
  obtain ⟨hx, rfl⟩ | ⟨rfl, hclosed⟩ := h
  · cases goOn with
    | true => exact hpropose.hears x hx
    | false => exact (hears_pure ()).mpr (.inl ⟨hx, rfl⟩)
  · exact (hears_pure ()).mpr (.inr ((List.append_nil hs).symm ▸ hclosed))

theorem Broyden.modest_advance (limit : Nat) (o : Options α) :
    Modest o.norm (advance limit o : Act α (Iteration α n _) Unit) :=
  quiet_read.modest_bind fun _ => Secant.modest_follow (plan limit o n) _ _

/-- The step of every method goes on unheard, or closes the run. -/
theorem Algorithm.modest_advance {a : Algorithm α} (ha : a.BuiltIn) (o : Options α) :
    Modest o.norm (a.method o n).advance := by
  cases a with
  | newton search l => exact Newton.modest_advance search l o
  | trustRegion scheme prm l => exact TrustRegion.modest_advance scheme prm l o
  | klement limit => exact Klement.modest_advance limit o
  | broyden limit => exact Broyden.modest_advance limit o
  | replay script => exact ha.elim

namespace Iteration

variable {m : Method α n σ} {b e it : Iteration α n σ} {k : Nat} {hs : List (Hook α)}
  {post : Unit → Iteration α n σ → List (Hook α) → Prop}

def verdictCalls (m : Method α n σ) (it : Iteration α n σ) : List (Hook α) :=
  if (it.tested m).terminated then [(it.tested m).closing m.options.norm it.stats.nsteps] else []

theorem hears_test (h : it.terminated = false) : (checkTermination m).hears post it ↔
    post () (it.tested m) (it.verdictCalls m) := by
  rw [checkTermination, silent_read.hears_bind, wp_read, verdictCalls]
  cases hv : it.verdict m.options with
  | some code =>
    rw [tested_of_verdict h hv]
    exact hears_terminate _ _ _
  | none =>
    have ht : it.tested m = it := by rw [tested, if_neg (by simp [h]), hv]; rfl
    rw [ht, h]
    exact hears_pure _

/-- Whether the step from a state ends the run before it is counted. -/
def EndsInside (m : Method α n σ) (it : Iteration α n σ) : Prop :=
  (m.advance.run it).state.terminated = true

def counted (it : Iteration α n σ) : Iteration α n σ := { it with stats := it.stats.countStep }

theorem hears_conclude (h : it.terminated = false) : (conclude m).hears post it ↔
    post () (it.counted.tested m) (.iteration (it.stats.nsteps + 1) it.u.toList
      (m.options.norm.of it.fu) :: it.counted.verdictCalls m) := by
  have hcounted : it.counted.terminated = false := h
  rw [conclude, (silent_update _).hears_bind, wp_update, silent_read.hears_bind, wp_read]
  split
  · rename_i ht
    exact absurd (hcounted.symm.trans ht) Bool.false_ne_true
  · rw [Act.hears_bind, hears_report]
    exact hears_test hcounted

theorem hears_conclude_over (h : it.terminated = true) :
    (conclude m).hears post it ↔ post () it.counted [] := by
  rw [conclude, (silent_update _).hears_bind, wp_update, silent_read.hears_bind, wp_read]
  split
  · exact hears_pure _
  · rename_i ht
    exact absurd h ht

/-- The hook calls of a step, and where it leads: nowhere if the run was over, to its end if the
test ends it or the method does inside the step, or on to a state that is announced and tested. -/
inductive Stepped (m : Method α n σ) (it : Iteration α n σ) :
    Iteration α n σ → List (Hook α) → Prop where
  | ended (h : it.terminated = true) : Stepped m it it []
  | judged (h : it.terminated = false) (ht : (it.tested m).terminated = true) :
    Stepped m it (it.tested m) (it.verdictCalls m)
  | quit {x : Iteration α n σ} (h : it.terminated = false) (hi : it.EndsInside m)
    (hx : x.terminated = true) (hk : x.stats.nsteps = it.stats.nsteps) :
    Stepped m it x.counted [x.closing m.options.norm it.stats.nsteps]
  | announced {x : Iteration α n σ} (h : it.terminated = false) (hi : ¬ it.EndsInside m)
    (hx : x.terminated = false) (hk : x.stats.nsteps = it.stats.nsteps) :
    Stepped m it (x.counted.tested m)
      (.iteration (it.stats.nsteps + 1) x.u.toList (m.options.norm.of x.fu) ::
        x.counted.verdictCalls m)

theorem hears_step (hadvance : Modest m.options.norm m.advance)
    (hm : ∀ P k, m.advance.Keeps (At P k)) (it : Iteration α n σ) :
    (step m).hears (fun _ => Stepped m it) it := by
  rw [step, silent_read.hears_bind, wp_read]
  cases hrun : it.terminated with
  | true => exact (hears_pure _).mpr (.ended hrun)
  | false =>
    rw [if_neg Bool.false_ne_true, Act.hears_bind, hears_test hrun, silent_read.hears_bind, wp_read]
    cases ht : (it.tested m).terminated with
    | true =>
      rw [if_pos rfl, hears_pure, List.append_nil]
      exact .judged hrun ht
    | false =>
      have hnone : it.verdictCalls m = [] := by rw [verdictCalls, ht]; rfl
      rw [if_neg Bool.false_ne_true, (tested_eq_self ht).2.2, hnone, Act.hears_bind]
      refine (hadvance.hears it hrun).returning.mono fun _ x hs h => ?_
      obtain ⟨hreturns, h⟩ := h
      have hk : x.stats.nsteps = it.stats.nsteps := by
        have hat := hm it.problem it.stats.nsteps it ⟨rfl, rfl⟩
        rw [hreturns.2] at hat
        exact hat.steps
      have hinside : it.EndsInside m ↔ x.terminated = true := by rw [EndsInside, hreturns.2]
      obtain ⟨hx, rfl⟩ | ⟨hstopped, rfl⟩ := h
      · rw [hears_conclude hx, hk]
        exact .announced hrun (by simp [hinside, hx]) hx hk
      · have hx : x.terminated = true := by rw [terminated, hstopped]; rfl
        rw [hears_conclude_over hx, hk]
        exact .quit hrun (hinside.mpr hx) hx hk

theorem after_succ (k : Nat) (it : Iteration α n σ) :
    after m (k + 1) it = ((step m).run (after m k it)).state := by
  induction k generalizing it with
  | zero => rfl
  | succ k ih => exact ih _

def announced (m : Method α n σ) (b : Iteration α n σ) (k : Nat) : List (Hook α) :=
  (List.range k).map fun j : Nat => .iteration ((j : Int) + 1) (after m (j + 1) b).u.toList
    (m.options.norm.of (after m (j + 1) b).fu)

theorem announced_succ (m : Method α n σ) (b : Iteration α n σ) (k : Nat) :
    announced m b (k + 1) = announced m b k ++ [.iteration ((k : Int) + 1)
      (after m (k + 1) b).u.toList (m.options.norm.of (after m (k + 1) b).fu)] := by
  rw [announced, List.range_succ, List.map_append]
  rfl

variable (m b) in
/-- The hook calls of a run up to a state: those of the steps that it survived, and one at its
end, which came of the test or inside the last step. -/
inductive Told : Iteration α n σ → List (Hook α) → Prop where
  | going {k : Nat} (hrun : (after m k b).terminated = false)
    (hsteps : (after m k b).stats.nsteps = k) (hs : ∀ j < k, ¬ (after m j b).EndsInside m) :
    Told (after m k b) (announced m b k)
  | judged {k : Nat} {e : Iteration α n σ} (hover : e.terminated = true)
    (hsteps : e.stats.nsteps = k) (hs : ∀ j < k, ¬ (after m j b).EndsInside m) :
    Told e (announced m b k ++ [e.closing m.options.norm k])
  | quit {k : Nat} {e : Iteration α n σ} (hover : e.terminated = true)
    (hsteps : e.stats.nsteps = k + 1) (hs : ∀ j < k, ¬ (after m j b).EndsInside m)
    (hi : (after m k b).EndsInside m) :
    Told e (announced m b k ++ [e.closing m.options.norm k])

omit [Scalar α] in
theorem closing_counted (norm : Norm α) (steps : Int) (it : Iteration α n σ) :
    it.counted.closing norm steps = it.closing norm steps := rfl

/-- A step adds its hook calls to those of the run. -/
theorem Told.step (h : Told m b e hs) {e' : Iteration α n σ} {hs' : List (Hook α)}
    (hstate : e' = ((Iteration.step m).run e).state) (hstep : Stepped m e e' hs') :
    Told m b e' (hs ++ hs') := by
  cases h with
  | judged hover hsteps hsurvived =>
    cases hstep with
    | ended => exact (List.append_nil _).symm ▸ .judged hover hsteps hsurvived
    | judged hrun | quit hrun | announced hrun =>
      exact absurd (hrun.symm.trans hover) Bool.false_ne_true
  | quit hover hsteps hsurvived hi =>
    cases hstep with
    | ended => exact (List.append_nil _).symm ▸ .quit hover hsteps hsurvived hi
    | judged hrun | quit hrun | announced hrun =>
      exact absurd (hrun.symm.trans hover) Bool.false_ne_true
  | @going k hrun hsteps hsurvived =>
    rw [← after_succ] at hstate
    cases hstep with
    | ended hover => exact absurd (hrun.symm.trans hover) Bool.false_ne_true
    | judged _ ht =>
      rw [verdictCalls, if_pos ht, hsteps]
      exact .judged ht (by rw [tested_stats, hsteps]) hsurvived
    | quit _ hi hx hk =>
      rw [hsteps, ← closing_counted]
      exact .quit hx (by rw [← hsteps, ← hk]; rfl) hsurvived hi
    | @announced x _ hi hx hk =>
      have hcount : x.counted.stats.nsteps = ((k + 1 : Nat) : Int) := by
        have : x.counted.stats.nsteps = x.stats.nsteps + 1 := rfl
        omega
      have hall : ∀ j < k + 1, ¬ (after m j b).EndsInside m := by
        intro j hj
        obtain hlt | rfl := Nat.lt_succ_iff_lt_or_eq.mp hj
        · exact hsurvived j hlt
        · exact hi
      have hu : x.u = (after m (k + 1) b).u := by rw [← hstate, tested_u]; rfl
      have hfu : x.fu = (after m (k + 1) b).fu := by rw [← hstate, tested_fu]; rfl
      rw [List.append_cons, hsteps, hu, hfu, ← announced_succ, verdictCalls]
      split
      · rename_i ht
        rw [hcount]
        exact .judged ht (by rw [tested_stats, hcount]) hall
      · rename_i ht
        rw [List.append_nil, hstate]
        rw [hstate, Bool.not_eq_true] at ht
        exact .going ht (by rw [← hstate, tested_stats, hcount]) hall

theorem Told.hears_drive (hadvance : Modest m.options.norm m.advance)
    (hm : ∀ P k, m.advance.Keeps (At P k)) (fuel : Nat) (h : Told m b e hs) :
    (drive m fuel).hears (fun _ e' hs' => Told m b e' (hs ++ hs')) e := by
  induction fuel generalizing e hs with
  | zero => exact (hears_pure _).mpr ((List.append_nil hs).symm ▸ h)
  | succ fuel ih =>
    rw [drive, silent_read.hears_bind, wp_read]
    split
    · exact (hears_pure _).mpr ((List.append_nil hs).symm ▸ h)
    · rw [Act.hears_bind]
      refine (hears_step hadvance hm e).returning.mono fun _ e' hs' hstep => ?_
      refine (ih (h.step hstep.1.2.symm hstep.2)).mono fun _ x hs'' hx => ?_
      rwa [List.append_assoc] at hx

/-- A solve adds its hook calls to those of the run. -/
theorem Told.hears_solve (hadvance : Modest m.options.norm m.advance)
    (hm : ∀ P k, m.advance.Keeps (At P k)) (h : Told m b e hs) :
    (solve m).hears (fun _ e' hs' => Told m b e' (hs ++ hs')) e := by
  rw [solve, silent_read.hears_bind, wp_read, Act.hears_bind]
  refine (h.hears_drive hadvance hm _).mono fun _ e' hs' he => ?_
  rw [silent_read.hears_bind, wp_read, hears_pure, List.append_nil]
  exact he

end Iteration

namespace Session

variable {b s e : Session Float n} {hs : List (Hook Float)}

/-- The hook calls while requests are served one after the other. -/
def calls (s : Session Float n) (rs : List Request) : List (Hook Float) :=
  (Act.transcript serve s rs).flatMap fun o => Event.hooks o.trace

/-- The calls that announce the first steps of a run, each with what it led to. -/
def announced (b : Session Float n) (m : Nat) : List (Hook Float) :=
  (List.range m).map fun j : Nat => .iteration ((j : Int) + 1) (b.after (j + 1)).iteration.u.toList
    ((b.after (j + 1)).residualNorm none)

/-- The call at the end of a run that announced a number of steps. -/
def closing (e : Session Float n) (m : Nat) : Hook Float :=
  if e.iteration.code = .success then .accept m e.iteration.u.toList (e.residualNorm none)
  else .failure m e.iteration.u.toList (e.residualNorm none)

/-- Whether the step of the method from a state ends the run, before it is counted. -/
def EndsInside (s : Session Float n) : Prop := s.iteration.EndsInside s.method

def Told (b e : Session Float n) (hs : List (Hook Float)) : Prop :=
  ∃ it, e = { b with iteration := it } ∧ Iteration.Told b.method b.iteration it hs

theorem announced_eq (b : Session Float n) (m : Nat) :
    b.announced m = Iteration.announced b.method b.iteration m := by
  refine List.map_congr_left fun j _ => ?_
  rw [residualNorm, after_eq, method_options]
  rfl

theorem closing_eq (b : Session Float n) (it : Iteration Float n (b.algorithm.Memory n)) (m : Nat) :
    ({ b with iteration := it } : Session Float n).closing m =
      it.closing b.method.options.norm m := by
  rw [method_options]
  unfold closing Iteration.closing ReturnCode.isSuccess
  simp only [beq_iff_eq]
  rfl

theorem endsInside_after (b : Session Float n) (k : Nat) :
    (b.after k).EndsInside ↔ (Iteration.after b.method k b.iteration).EndsInside b.method := by
  rw [after_eq]
  rfl

/-- The hook calls of a run that announced a number of steps, and how its steps are counted. -/
structure Tells (b e : Session Float n) (m : Nat) (hs : List (Hook Float)) : Prop where
  steps : e.iteration.stats.nsteps = m ∨
    e.iteration.terminated = true ∧ e.iteration.stats.nsteps = m + 1
  inside : ∀ k : Nat, k < e.iteration.stats.nsteps → ((b.after k).EndsInside ↔ k = m)
  calls : hs = b.announced m ++ if e.iteration.terminated then [e.closing m] else []

theorem Told.tells (h : b.Told e hs) : ∃ m, b.Tells e m hs := by
  obtain ⟨it, rfl, h⟩ := h
  cases h with
  | @going m hrun hsteps hsurvived =>
    refine ⟨m, .inl hsteps, fun k hk => ?_, ?_⟩
    · rw [endsInside_after]
      have hlt : k < m := by simpa [hsteps] using hk
      exact iff_of_false (hsurvived k hlt) hlt.ne
    · rw [if_neg (by simpa using hrun), List.append_nil, announced_eq]
  | @judged m _ hover hsteps hsurvived =>
    refine ⟨m, .inl hsteps, fun k hk => ?_, ?_⟩
    · rw [endsInside_after]
      have hlt : k < m := by simpa [hsteps] using hk
      exact iff_of_false (hsurvived k hlt) hlt.ne
    · rw [if_pos hover, announced_eq, closing_eq]
  | @quit m _ hover hsteps hsurvived hi =>
    refine ⟨m, .inr ⟨hover, hsteps⟩, fun k hk => ?_, ?_⟩
    · rw [endsInside_after]
      have hle : k < m + 1 := by
        have : (k : Int) < m + 1 := by simpa [hsteps] using hk
        omega
      obtain hlt | rfl := Nat.lt_succ_iff_lt_or_eq.mp hle
      · exact iff_of_false (hsurvived k hlt) hlt.ne
      · exact iff_of_true hi rfl
    · rw [if_pos hover, announced_eq, closing_eq]

theorem Told.serve (hb : b.algorithm.BuiltIn) (h : b.Told s hs) {q : Request}
    (hq : q = .step ∨ q = .solve) (hok : Act.Granted Session.serve s q) :
    b.Told ((Session.serve q).run s).state
      (hs ++ Event.hooks ((Session.serve q).run s).trace) := by
  obtain ⟨it, rfl, hit⟩ := h
  have hadvance : Modest b.method.options.norm b.method.advance := by
    rw [method_options]
    exact Algorithm.modest_advance hb b.options
  unfold Act.Granted at hok
  obtain rfl | rfl := hq
  · rw [run_serve_step, except_isOk_map] at hok
    rw [run_serve_step]
    have hreturns := Act.returns_of_isOk (x := Iteration.step b.method) (s := it) hok
    exact ⟨_, rfl, hit.step rfl (hears_step hadvance b.method_advance_at it () hreturns.1)⟩
  · rw [run_serve_solve, except_isOk_map] at hok
    rw [run_serve_solve]
    obtain ⟨r, hr⟩ : ∃ r, ((Iteration.solve b.method).run it).result = .ok r := by
      cases hr : ((Iteration.solve b.method).run it).result with
      | ok r => exact ⟨r, rfl⟩
      | error e =>
        have hfail : (solve.run { b with iteration := it }).result = .error e := hr
        rw [hfail] at hok
        cases hok
    exact ⟨_, rfl, hit.hears_solve hadvance b.method_advance_at r hr⟩

theorem Told.served (hb : b.algorithm.BuiltIn) {rs : List Request} (h : b.Told s hs)
    (hrs : Act.Served Session.serve
      (fun s r => (r = .step ∨ r = .solve) ∧ Act.Granted Session.serve s r) s rs e) :
    b.Told e (hs ++ s.calls rs) := by
  induction hrs generalizing hs with
  | none => exact (List.append_nil hs).symm ▸ h
  | more hr _ ih =>
    have hnext := ih (h.serve hb hr.1 hr.2)
    rwa [List.append_assoc] at hnext

theorem trace_ended (hover : s.iteration.terminated = true) {q : Request}
    (hq : q = .step ∨ q = .solve) : ((Session.serve q).run s).trace = [] := by
  obtain rfl | rfl := hq
  · have hstep : (Iteration.step s.method).run s.iteration = ⟨.ok (), s.iteration, []⟩ := by
      rw [Iteration.step, run_read_bind, if_pos hover]
      rfl
    rw [run_serve_step]
    exact congrArg Outcome.trace hstep
  · rw [run_serve_solve]
    exact congrArg Outcome.trace (solve_of_terminated (m := s.method) hover)

/-- A session that has ended calls no hook, however often it is stepped or solved. -/
theorem calls_ended (hover : s.iteration.terminated = true) {rs : List Request}
    (hrs : ∀ r ∈ rs, r = .step ∨ r = .solve) : s.calls rs = [] := by
  induction rs with
  | nil => rfl
  | cons r rs ih =>
    obtain ⟨hr, hrest⟩ := List.forall_mem_cons.mp hrs
    rw [calls, Act.transcript, List.flatMap_cons, trace_ended hover hr, (bound_serve hr).2 hover]
    exact ih hrest

end Session

/-- The hook protocol. Setting a candidate to work calls no hook, nor does starting its session
over. While the run that begins then is driven by steps and solves that return, the hooks are told
of the steps one, two, and so on up to the last that did not end the run inside, each with the
iterate and the norm that it led to, and of the end of the run once: as an acceptance if the code is
success, as a failure otherwise. After that no step and no solve calls a hook. -/
theorem hooks_follow_protocol [LinearRoutines Float] {call : Call} {problem : Problem Float n}
    {c : Candidate} (hc : c.BuiltIn) {b e : Session Float n} (hb : c.Begins call problem b)
    {rs : List Session.Request} (h : Act.Served Session.serve
      (fun s r => (r = .step ∨ r = .solve) ∧ Act.Granted Session.serve s r) b rs e) :
    Event.hooks ((c.init call problem).run ()).trace = [] ∧
      (∀ (s : Session Float n) start parameter,
        Event.hooks ((Session.reinitAt start parameter).run s).trace = []) ∧
      (∃ m, b.Tells e m (b.calls rs)) ∧
      (e.iteration.terminated = true → ∀ rs', (∀ r ∈ rs', r = .step ∨ r = .solve) →
        e.calls rs' = []) := by
  have hopens := hb.opens
  have hbuiltIn : b.algorithm.BuiltIn := hopens.algorithm ▸ hc
  have hbegin : b.Told b [] := by
    refine ⟨b.iteration, rfl, ?_⟩
    exact .going (k := 0) hopens.running hopens.steps fun j hj => absurd hj (Nat.not_lt_zero j)
  exact ⟨c.silent_init call problem (), fun s start parameter =>
    Session.silent_reinitAt start parameter s, (hbegin.served hbuiltIn h).tells,
    fun hover rs' => Session.calls_ended hover⟩

theorem hooks_follow_protocol_rootless : ∃ b e : Session Float 1,
    damped.Begins .plain rootless b ∧
    Act.Served Session.serve (fun s r => (r = .step ∨ r = .solve) ∧ Act.Granted Session.serve s r) b
      [.step, .solve] e ∧
    e.iteration.code = .stalled ∧
    b.calls [.step, .solve] = b.announced 2 ++ [e.closing 2] ∧
    e.calls [.solve, .step, .solve] = [] := by
  have hrun : ((damped.init .plain rootless).run ()).result.toOption.map (fun b =>
      let s := ((Session.serve .step).run b).state
      let e := ((Session.serve .solve).run s).state
      (((Session.serve .step).run b).result.isOk, ((Session.serve .solve).run s).result.isOk,
        e.iteration.code, e.iteration.terminated, (b.calls [.step, .solve]).length)) =
      some (true, true, .stalled, true, 3) := by decide +kernel
  cases hb : ((damped.init .plain rootless).run ()).result with
  | error e => rw [hb] at hrun; cases hrun
  | ok b =>
    rw [hb] at hrun
    simp only [Except.toOption, Option.map_some, Option.some.injEq, Prod.mk.injEq] at hrun
    obtain ⟨h₁, h₂, hcode, hover, hlength⟩ := hrun
    have hserved : Act.Served Session.serve
        (fun s r => (r = .step ∨ r = .solve) ∧ Act.Granted Session.serve s r) b [.step, .solve] _ :=
      .more ⟨.inl rfl, h₁⟩ (.more ⟨.inr rfl, h₂⟩ (.none _))
    obtain ⟨-, -, ⟨m, htells⟩, hsilence⟩ :=
      hooks_follow_protocol (c := damped) trivial (.init hb) hserved
    have hcalls := htells.calls
    rw [if_pos hover] at hcalls
    obtain rfl : m = 2 := by
      have hlen := congrArg List.length hcalls
      rw [hlength, List.length_append, Session.announced, List.length_map,
        List.length_range] at hlen
      exact (Nat.succ.inj hlen).symm
    refine ⟨b, _, .init hb, hserved, hcode, hcalls, hsilence hover _ ?_⟩
    intro r hr
    cases r with
    | step => exact .inl rfl
    | solve => exact .inr rfl
    | reinit start parameter => simp at hr

end Rootfinder
