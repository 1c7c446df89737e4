import Rootfinder.Candidate
import Rootfinder.Proofs.Act

namespace Rootfinder

variable {α β γ σ τ : Type} {n : Nat}

def Note.finalCount? : Note α → Option Int
  | .converged _ steps _ | .stopped _ _ steps _ => some steps
  | _ => none

def Hook.finalCount? : Hook α → Option Int
  | .accept steps .. | .failure steps .. => some steps
  | .iteration .. => none

structure Note.Working (note : Note α) : Prop where
  debug : note.level = .debug
  ongoing : note.finalCount? = none

namespace Event

def Working : Event α → Prop
  | .note x => x.Working
  | .hook _ => False

@[simp]
theorem hooks_append (s t : List (Event α)) : hooks (s ++ t) = hooks s ++ hooks t :=
  List.filterMap_append

@[simp]
theorem notes_append (s t : List (Event α)) : notes (s ++ t) = notes s ++ notes t :=
  List.filterMap_append

/-- The ends of runs are logged and told to a hook with the same counts, and records are for
debugging only. -/
structure Orderly (t : List (Event α)) : Prop where
  counts : (notes t).filterMap Note.finalCount? = (hooks t).filterMap Hook.finalCount?
  debug : ∀ note ∈ notes t, note.level = .debug

theorem orderly_nil : Orderly ([] : List (Event α)) := ⟨rfl, nofun⟩

theorem Orderly.append {s t : List (Event α)} (hs : Orderly s) (ht : Orderly t) :
    Orderly (s ++ t) where
  counts := by
    rw [notes_append, hooks_append, List.filterMap_append, List.filterMap_append, hs.counts,
      ht.counts]
  debug := by
    rw [notes_append]
    exact List.forall_mem_append.mpr ⟨hs.debug, ht.debug⟩

theorem mem_notes {t : List (Event α)} {x : Note α} : x ∈ notes t ↔ .note x ∈ t := by
  rw [notes, List.mem_filterMap]
  constructor
  · rintro ⟨⟨y⟩ | y, he, hy⟩
    · exact Option.some.inj hy ▸ he
    · cases hy
  · exact fun hx => ⟨_, hx, rfl⟩

theorem mem_hooks {t : List (Event α)} {x : Hook α} : x ∈ hooks t ↔ .hook x ∈ t := by
  rw [hooks, List.mem_filterMap]
  constructor
  · rintro ⟨⟨y⟩ | y, he, hy⟩
    · cases hy
    · exact Option.some.inj hy ▸ he
  · exact fun hx => ⟨_, hx, rfl⟩

theorem hooks_working {t : List (Event α)} (h : ∀ e ∈ t, e.Working) : hooks t = [] :=
  List.eq_nil_iff_forall_not_mem.mpr fun _ hx => h _ (mem_hooks.mp hx)

theorem orderly_working {t : List (Event α)} (h : ∀ e ∈ t, e.Working) : Orderly t where
  counts := by
    rw [hooks_working h, List.filterMap_nil, List.filterMap_eq_nil_iff]
    exact fun x hx => (h _ (mem_notes.mp hx)).ongoing
  debug := fun x hx => (h _ (mem_notes.mp hx)).debug

end Event

namespace Act

def Silent (x : Act α σ β) : Prop := ∀ s, Event.hooks (x.run s).trace = []

/-- A computation reports nothing but its work, however it ends. -/
def Works (x : Act α σ β) : Prop := ∀ s, ∀ e ∈ (x.run s).trace, e.Working

def Orderly (x : Act α σ β) : Prop := ∀ s, Event.Orderly (x.run s).trace

def shows (x : Act α σ β) (post : β → σ → List (Event α) → Prop) (s : σ) : Prop :=
  ∀ b, (x.run s).result = .ok b → post b (x.run s).state (x.run s).trace

section Shown

variable {s : σ} {post : β → σ → List (Event α) → Prop}

theorem shows.mono {x : Act α σ β} {post' : β → σ → List (Event α) → Prop} (h : x.shows post s)
    (hp : ∀ b s t, post b s t → post' b s t) : x.shows post' s :=
  fun b hb => hp b _ _ (h b hb)

@[simp]
theorem shows_pure (b : β) : (pure b : Act α σ β).shows post s ↔ post b s [] :=
  ⟨fun h => h b rfl, fun h _ hc => Except.ok.inj hc ▸ h⟩

@[simp]
theorem shows_read {post : σ → σ → List (Event α) → Prop} :
    (read : Act α σ σ).shows post s ↔ post s s [] :=
  ⟨fun h => h s rfl, fun h _ hc => Except.ok.inj hc ▸ h⟩

@[simp]
theorem shows_update {post : Unit → σ → List (Event α) → Prop} (f : σ → σ) :
    (update f : Act α σ Unit).shows post s ↔ post () (f s) [] := ⟨fun h => h () rfl, fun h _ _ => h⟩

@[simp]
theorem shows_report {post : Unit → σ → List (Event α) → Prop} (e : Event α) :
    (report e : Act α σ Unit).shows post s ↔ post () s [e] := ⟨fun h => h () rfl, fun h _ _ => h⟩

@[simp]
theorem shows_log {post : Unit → σ → List (Event α) → Prop} (note : Note α) :
    (log note : Act α σ Unit).shows post s ↔ post () s [.note note] := shows_report _

theorem shows_raise (e : Fault α) : (raise e : Act α σ β).shows post s := fun _ hb => by cases hb

theorem shows_ofExcept {r : Except (Fault α) β} :
    (ofExcept r : Act α σ β).shows post s ↔ ∀ b, r = .ok b → post b s [] := by
  cases r <;> exact Iff.rfl

@[simp]
theorem shows_within {x : Act α τ β} {init : τ} :
    (within init x : Act α σ β).shows post s ↔ x.shows (fun b _ t => post b s t) init := Iff.rfl

theorem shows_bind (x : Act α σ γ) (f : γ → Act α σ β) :
    (x >>= f).shows post s ↔
      x.shows (fun c s' t => (f c).shows (fun b s'' u => post b s'' (t ++ u)) s') s := by
  rcases h : x.run s with ⟨r, s', t⟩
  cases r with
  | error e =>
    constructor
    · intro _ b hb
      rw [h] at hb
      cases hb
    · intro _ b hb
      rw [run_bind_error h] at hb
      cases hb
  | ok c => simp only [shows, run_bind_ok h, h, Except.ok.injEq, forall_eq']

end Shown

section Rules

theorem silent_read : (read : Act α σ σ).Silent := fun _ => rfl

theorem silent_update (f : σ → σ) : (update f : Act α σ Unit).Silent := fun _ => rfl

theorem silent_log (note : Note α) : (log note : Act α σ Unit).Silent := fun _ => rfl

theorem Works.silent {x : Act α σ β} (hx : x.Works) : x.Silent := fun s =>
  Event.hooks_working (hx s)

theorem Works.orderly {x : Act α σ β} (hx : x.Works) : x.Orderly := fun s =>
  Event.orderly_working (hx s)

theorem works_pure (b : β) : (pure b : Act α σ β).Works := fun _ => nofun

theorem works_read : (read : Act α σ σ).Works := fun _ => nofun

theorem works_update (f : σ → σ) : (update f : Act α σ Unit).Works := fun _ => nofun

theorem works_raise (e : Fault α) : (raise e : Act α σ β).Works := fun _ => nofun

theorem works_log {note : Note α} (h : note.Working) : (log note : Act α σ Unit).Works :=
  fun _ _ he => (List.mem_singleton.mp he).symm ▸ h

theorem works_ofExcept (r : Except (Fault α) β) : (ofExcept r : Act α σ β).Works := by
  cases r with
  | ok b => exact works_pure b
  | error e => exact works_raise e

/-- What lasts when reports are put together holds of those of one computation after another. -/
theorem trace_bind {P : List (Event α) → Prop} (hP : ∀ t u, P t → P u → P (t ++ u))
    {x : Act α σ β} {f : β → Act α σ γ} {s : σ} (hx : P (x.run s).trace)
    (hf : x.wp (fun b s' => P ((f b).run s').trace) (fun _ _ => True) s) :
    P ((x >>= f).run s).trace := by
  unfold wp at hf
  rcases h : x.run s with ⟨r, s', t⟩
  rw [h] at hx hf
  cases r with
  | error e => rw [run_bind_error h]; exact hx
  | ok b => rw [run_bind_ok h]; exact hP _ _ hx hf

/-- The second computation may rely on what the first tells about its value. -/
theorem Works.bind_of {R : β → Prop} {x : Act α σ β} {f : β → Act α σ γ} (hx : x.Works)
    (hr : ∀ s, x.wp (fun b _ => R b) (fun _ _ => True) s) (hf : ∀ b, R b → (f b).Works) :
    (x >>= f).Works := fun s =>
  trace_bind (P := fun t => ∀ e ∈ t, e.Working)
    (fun _ _ ht hu => List.forall_mem_append.mpr ⟨ht, hu⟩) (hx s)
    ((hr s).mono (fun b s' hb => hf b hb s') fun _ _ h => h)

theorem Works.bind {x : Act α σ β} {f : β → Act α σ γ} (hx : x.Works)
    (hf : ∀ b, (f b).Works) : (x >>= f).Works :=
  hx.bind_of (R := fun _ => True) (fun _ => wp_of_forall _ (fun _ _ => trivial) fun _ _ => trivial)
    fun b _ => hf b

theorem Works.ite {c : Prop} [Decidable c] {x y : Act α σ β} (hx : x.Works) (hy : y.Works) :
    (if c then x else y).Works := by
  split
  · exact hx
  · exact hy

theorem Works.attempt {x : Act α σ β} (hx : x.Works) : (attempt x).Works := hx

theorem Works.zoom {x : Act α τ β} (hx : x.Works) (get : σ → τ) (put : τ → σ → σ) :
    (zoom get put x).Works := fun s => hx (get s)

theorem Works.within {x : Act α τ β} (hx : x.Works) (init : τ) :
    (within init x : Act α σ β).Works := fun _ => hx init

/-- The second computation may rely on what the first tells about its value. -/
theorem Orderly.bind_of {R : β → Prop} {x : Act α σ β} {f : β → Act α σ γ} (hx : x.Orderly)
    (hr : ∀ s, x.wp (fun b _ => R b) (fun _ _ => True) s) (hf : ∀ b, R b → (f b).Orderly) :
    (x >>= f).Orderly := fun s =>
  trace_bind (fun _ _ => Event.Orderly.append) (hx s)
    ((hr s).mono (fun b s' hb => hf b hb s') fun _ _ h => h)

theorem Orderly.bind {x : Act α σ β} {f : β → Act α σ γ} (hx : x.Orderly)
    (hf : ∀ b, (f b).Orderly) : (x >>= f).Orderly :=
  hx.bind_of (R := fun _ => True) (fun _ => wp_of_forall _ (fun _ _ => trivial) fun _ _ => trivial)
    fun b _ => hf b

theorem Orderly.ite {c : Prop} [Decidable c] {x y : Act α σ β} (hx : x.Orderly) (hy : y.Orderly) :
    (if c then x else y).Orderly := by
  split
  · exact hx
  · exact hy

theorem Orderly.within {x : Act α τ β} (hx : x.Orderly) (init : τ) :
    (within init x : Act α σ β).Orderly := fun _ => hx init

end Rules

end Act

open Act

theorem Inquiry.works_run {product : Vec α n → Act α Stats (Vec α n)}
    (hp : ∀ v, (product v).Works) (q : Inquiry α n β) : (q.run product).Works := by
  induction q with
  | done b => exact works_pure b
  | ask v next ih => exact (hp v).bind ih

variable [Scalar α]

def Linearized.Works (A : Linearized α n) : Prop := ∀ v, (A.product v).Works

namespace Jacobian

variable (prob : Problem α n) (d : Differencing α) (u fu : Vec α n)

theorem works_probe : (probe prob u).Works :=
  (works_ofExcept _).bind fun _ => (works_update _).bind fun _ => works_pure _

theorem works_directional (v : Vec α n) : (directional prob d u fu v).Works := by
  refine Works.ite (works_pure _) ?_
  refine (works_ofExcept _).bind fun step => (works_ofExcept _).bind fun v => ?_
  refine (works_probe _ _).bind fun ahead => Works.ite ?_ (works_pure _)
  exact (works_probe _ _).bind fun behind => works_pure _

theorem works_differences : (differences prob d u fu).Works := by
  unfold differences
  generalize (Mat.zero n n : Mat α n n) = J
  induction List.finRange n generalizing J with
  | nil => exact works_pure _
  | cons j js ih =>
    rw [List.foldlM_cons]
    exact ((works_directional prob d u fu _).bind fun c => works_pure _).bind ih

theorem works_matrix : (matrix prob d u fu).Works :=
  Works.ite (works_ofExcept _) (works_differences prob d u fu)

theorem works_dense : (dense prob d u fu).Works :=
  (works_update _).bind fun _ => works_matrix prob d u fu

theorem works_build (concrete : Bool) : (build concrete prob d u fu).Works := by
  refine (works_update _).bind fun _ => Works.ite ?_ ?_
  · exact (works_matrix prob d u fu).bind fun _ => works_pure _
  · exact Works.ite ((works_ofExcept _).bind fun _ => works_pure _) (works_pure _)

/-- So it is with the products of a Jacobian, in whatever representation. -/
theorem wp_build_works (concrete : Bool) (s : Stats) :
    (build concrete prob d u fu).wp (fun J _ => J.Works) (fun _ _ => True) s := by
  rw [build, wp_bind, wp_update]
  split
  · rw [wp_bind]
    exact wp_of_forall _ (fun J _ v => works_pure _) fun _ _ => trivial
  · unfold operator
    split
    · rw [wp_bind]
      exact wp_of_forall _ (fun J _ v => works_pure _) fun _ _ => trivial
    · exact fun v => works_directional prob d u fu v

end Jacobian

namespace LinearSolver

variable (s : LinearSolver α)

theorem works_eliminate (A : Mat α n n) (b : Vec α n) : (s.eliminate A b).Works := by
  have hfactorize : (s.factorize A).Works := Works.ite (works_raise _) <|
    (works_update _).bind fun _ => Works.ite (works_raise _) (works_pure _)
  exact hfactorize.bind fun _ => works_pure _

theorem works_leastSquares {m : Nat} (A : Mat α m n) (b : Vec α m) :
    (s.leastSquares A b).Works := by
  refine Works.ite ?_ (works_raise _)
  split
  · exact works_pure _
  · exact works_raise _

omit [Scalar α] in
theorem works_answer (x : Vec α n) (info : Int) : (s.answer x info).Works :=
  Works.ite (works_raise _) <|
    Works.ite ((works_log ⟨rfl, rfl⟩).bind fun _ => works_pure _) (works_pure _)

theorem works_krylov {A : Linearized α n} (hA : A.Works) (b : Vec α n) (u : List α)
    (p : Parameter α) : (s.krylov A b u p).Works := by
  unfold krylov
  split
  · exact (works_pure _).bind fun M =>
      (Inquiry.works_run hA _).bind fun r => s.works_answer r.1 r.2
  · exact (works_ofExcept _).bind fun M =>
      (Inquiry.works_run hA _).bind fun r => s.works_answer r.1 r.2

/-- A linear solve reports nothing but its work if the products with the Jacobian do. -/
theorem works_solve {A : Linearized α n} (hA : A.Works) (b : Vec α n)
    (u : List α) (p : Parameter α) : (s.solve A b u p).Works := by
  refine (works_update _).bind fun _ => ?_
  split
  · exact s.works_krylov hA b u p
  · exact works_raise _
  · exact s.works_leastSquares _ _
  · exact s.works_eliminate _ _

end LinearSolver

namespace LineSearch

theorem works_capped (prm : Params α) (delta : Vec α n) :
    (capped prm delta : Act α σ (Vec α n)).Works := by
  unfold capped
  split
  · exact works_raise _
  · exact works_pure _
  · refine Works.ite (works_pure _) (Works.ite ?_ (works_pure _))
    exact (works_log ⟨rfl, rfl⟩).bind fun _ => works_pure _

namespace Search

variable {s : Search α σ n} (hs : ∀ x, (s.residual x).Works)

omit [Scalar α] in
theorem works_conclude (best : Option (Trial α n)) :
    (s.conclude best : Act α σ (Trial α n)).Works := by
  cases best with
  | none => exact works_raise _
  | some t => exact (works_log ⟨rfl, rfl⟩).bind fun _ => works_pure _

include hs

theorem works_trials (fuel : Nat) (alpha : α) (best : Option (Trial α n)) :
    (s.trials fuel alpha best).Works := by
  induction fuel generalizing alpha best with
  | zero => exact works_raise _
  | succ fuel ih =>
    have hshort : ∀ best, (if alpha * s.params.reduction < alpha then
        s.trials fuel (alpha * s.params.reduction) best else Act.raise .endless).Works :=
      fun best => Works.ite (ih _ best) (works_raise _)
    refine Works.ite (Works.bind ((hs _).bind fun r => works_pure _) fun t => ?_)
      (works_conclude best)
    refine Works.ite ((works_log ⟨rfl, rfl⟩).bind fun _ => hshort best) ?_
    exact Works.ite ((works_log ⟨rfl, rfl⟩).bind fun _ => works_pure _) (hshort _)

end Search

/-- A search reports nothing but its work if the function searched does. -/
theorem works_search (prm : Params α) {residual : Vec α n → Act α σ (Vec α n)}
    (hr : ∀ x, (residual x).Works) (norm : Norm α) (start delta : Vec α n) (current : α) :
    (search prm residual norm start delta current).Works :=
  (works_capped prm delta).bind fun _ => Search.works_trials hr _ _ _

end LineSearch

namespace Iteration

section Parts

omit [Scalar α]

theorem works_counting {x : Act α Stats β} (hx : x.Works) :
    (counting x : Act α (Iteration α n σ) β).Works := hx.zoom _ _

theorem works_refresh : (refresh : Act α (Iteration α n σ) Unit).Works := by
  refine (works_update _).bind fun _ => works_read.bind fun _ => ?_
  refine (works_update _).bind fun _ => ?_
  split
  · exact works_pure _
  · exact works_raise _

theorem works_reinit (m : Method α n σ) (start : Option (List α))
    (parameter : Option (Parameter α)) : (reinit m start parameter).Works := by
  refine works_read.bind fun _ => (works_ofExcept _).bind fun _ => ?_
  refine (works_update _).bind fun _ => (works_update _).bind fun _ => ?_
  exact works_refresh.bind fun _ => works_update _

end Parts

theorem works_evaluate (x : Vec α n) :
    (evaluate x : Act α (Iteration α n σ) (Vec α n)).Works :=
  (works_update _).bind fun _ => works_read.bind fun _ => works_ofExcept _

theorem works_start (m : Method α n σ) (problem : Problem α n) : (start m problem).Works :=
  Works.within (works_refresh.bind fun _ => works_read.bind fun _ => works_pure _) _

end Iteration

/-- Starting a session over calls no hook. -/
theorem Session.silent_reinitAt (start : Value) (parameter : Option (Parameter Float)) :
    (reinitAt start parameter : Act Float (Session Float n) Unit).Silent := by
  have hreinit : ∀ xs, (reinit xs parameter : Act Float (Session Float n) Unit).Works :=
    fun xs s => Iteration.works_reinit s.method xs parameter s.iteration
  refine Works.silent ?_
  unfold reinitAt
  split
  · exact hreinit none
  · exact (works_ofExcept _).bind fun xs => hreinit (some xs)

variable [LinearRoutines Float]

/-- Setting a candidate to work reports nothing but that. -/
theorem Candidate.works_init (c : Candidate) (call : Call) (problem : Problem Float n) :
    (c.init call problem).Works := by
  unfold init
  dsimp only
  split
  · exact works_raise _
  · refine Works.ite (works_raise _) (Works.ite (works_raise _) ?_)
    refine (works_ofExcept _).bind fun o => ?_
    exact (Iteration.works_start _ _).bind fun _ => works_pure _

theorem Candidate.silent_init (c : Candidate) (call : Call) (problem : Problem Float n) :
    (c.init call problem).Silent := (c.works_init call problem).silent

end Rootfinder
