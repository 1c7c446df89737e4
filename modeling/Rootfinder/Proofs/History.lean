import Rootfinder.Proofs.Warm

namespace Rootfinder

variable {α σ β ρ : Type}

namespace Act

/-- The states that allowed requests lead to, answered or not. -/
inductive Reached (serve : ρ → Act α σ β) (allowed : ρ → Prop) (s₀ : σ) : σ → Prop where
  | start : Reached serve allowed s₀ s₀
  | after {s : σ} (h : Reached serve allowed s₀ s) (r : ρ) (hr : allowed r) :
    Reached serve allowed s₀ ((serve r).run s).state

theorem Reached.keeps {serve : ρ → Act α σ β} {allowed : ρ → Prop} {s₀ s : σ} {P : σ → Prop}
    (h : Reached serve allowed s₀ s) (h₀ : P s₀) (hk : ∀ r, allowed r → (serve r).Keeps P) :
    P s := by
  induction h with
  | start => exact h₀
  | after _ r hr ih => exact hk r hr _ ih

/-- Requests served one after the other, each allowed in the state that it finds. -/
inductive Served (serve : ρ → Act α σ β) (allowed : σ → ρ → Prop) : σ → List ρ → σ → Prop where
  | none (s : σ) : Served serve allowed s [] s
  | more {s s' : σ} {r : ρ} {rs : List ρ} (hr : allowed s r)
    (h : Served serve allowed ((serve r).run s).state rs s') :
    Served serve allowed s (r :: rs) s'

theorem Served.keeps {serve : ρ → Act α σ β} {allowed : σ → ρ → Prop} {s s' : σ} {rs : List ρ}
    {P : σ → Prop} (h : Served serve allowed s rs s') (h₀ : P s)
    (hk : ∀ s r, P s → allowed s r → P ((serve r).run s).state) : P s' := by
  induction h with
  | none => exact h₀
  | more hr _ ih => exact ih (hk _ _ h₀ hr)

/-- A call that returns. -/
def Granted (serve : ρ → Act α σ β) (s : σ) (r : ρ) : Prop :=
  ((serve r).run s).result.isOk = true

section Each

variable {x : Act α σ Unit} {post : Unit → List σ → Prop} {broken : Fault α → List σ → Prop}

theorem wp_each_cons {s : σ} {ss : List σ} : (each x).wp post broken (s :: ss) ↔
    x.wp (fun _ s' => (each x).wp (fun u ss' => post u (s' :: ss'))
      (fun e ss' => broken e (s' :: ss')) ss) (fun e s' => broken e (s' :: ss)) s := by
  rcases h : x.run s with ⟨r, s', t⟩
  have hx : x s = ⟨r, s', t⟩ := h
  cases r with
  | error e => simp only [wp, run, each, hx]
  | ok u => simp only [wp, run, each, hx]

theorem keeps_each {Q : σ → Prop} (hx : x.Keeps Q) : (each x).Keeps fun ss => ∀ s ∈ ss, Q s := by
  apply keeps_of_wp
  intro ss
  induction ss with
  | nil => intro h; exact h
  | cons s ss ih =>
    intro h
    obtain ⟨hs, hss⟩ := List.forall_mem_cons.mp h
    rw [wp_each_cons]
    refine (hx.wp hs).mono (fun _ s' hs' => ?_) fun _ s' hs' => ?_
    · exact (ih hss).mono (fun _ _ h => List.forall_mem_cons.mpr ⟨hs', h⟩)
        fun _ _ h => List.forall_mem_cons.mpr ⟨hs', h⟩
    · exact List.forall_mem_cons.mpr ⟨hs', hss⟩

/-- What does not raise on any state leads all of them to what it leads each to. -/
theorem wp_each {Q Q' : σ → Prop} (hx : ∀ s, Q s → x.wp (fun _ => Q') (fun _ _ => False) s)
    {ss : List σ} (h : ∀ s ∈ ss, Q s) :
    (each x).wp (fun _ ss' => ∀ s ∈ ss', Q' s) (fun _ _ => False) ss := by
  induction ss with
  | nil => exact fun s hs => absurd hs List.not_mem_nil
  | cons s ss ih =>
    obtain ⟨hs, hss⟩ := List.forall_mem_cons.mp h
    rw [wp_each_cons]
    refine (hx s hs).mono (fun _ s' hs' => ?_) fun _ _ h => h
    exact (ih hss).mono (fun _ _ h => List.forall_mem_cons.mpr ⟨hs', h⟩) fun _ _ h => h

end Each

end Act

variable {n : Nat}

namespace Session

/-- What can be asked of a session. -/
inductive Request where
  | step
  | solve
  | reinit (start : Value) (parameter : Option (Parameter Float))

/-- Serves a request; a solve is answered by a solution. -/
def serve : Request → Act Float (Session Float n) (Option (Solution Float n))
  | .step => do
    step
    pure none
  | .solve => do
    let run ← solve
    pure (some run.toSolution)
  | .reinit start parameter => do
    reinitAt start parameter
    pure none

theorem run_serve_step (s : Session Float n) : (serve .step).run s =
    ⟨(step.run s).result.map fun _ => none, (step.run s).state, (step.run s).trace⟩ :=
  Act.run_bind_pure step (fun _ => none) s

theorem run_serve_solve (s : Session Float n) : (serve .solve).run s =
    ⟨(solve.run s).result.map fun r => some r.toSolution, (solve.run s).state,
      (solve.run s).trace⟩ :=
  Act.run_bind_pure solve (fun r => some r.toSolution) s

section Keeping

variable {P : Session Float n → Prop}

/-- Reading the point to start over from changes nothing. -/
theorem keeps_reinitAt {parameter : Option (Parameter Float)}
    (h : ∀ xs, (reinit xs parameter).Keeps P) (start : Value) :
    (reinitAt start parameter).Keeps P := by
  unfold reinitAt
  split
  · exact h none
  · exact (Act.keeps_ofExcept _).bind fun xs => h (some xs)

theorem keeps_request (hstep : step.Keeps P) (hsolve : solve.Keeps P)
    (hreinit : ∀ start parameter, (reinitAt start parameter).Keeps P) (r : Request) :
    (serve r).Keeps P := by
  cases r with
  | step => exact hstep.bind fun _ => Act.keeps_pure _
  | solve => exact hsolve.bind fun _ => Act.keeps_pure _
  | reinit start parameter => exact (hreinit start parameter).bind fun _ => Act.keeps_pure _

end Keeping

end Session

namespace Warm

/-- What can be asked of kept sessions, together or of one of them. -/
inductive Request where
  | performStep
  | solve
  | setCurrent (value : Value)
  | reinit (start : Value) (parameter : Option (Parameter Float))
  | one (place : Nat) (request : Session.Request)

/-- Requests after which all sessions still have one problem: none is started over alone. -/
def Request.Joint : Request → Prop
  | .one _ (.reinit ..) => False
  | _ => True

def serve : Request → Act Float (Warm Float n) (Option (Solution Float n))
  | .performStep => do
    let run ← performStep
    pure (some run.toSolution)
  | .solve => do
    let sol ← solve
    pure (some sol)
  | .setCurrent value => do
    setCurrent value
    pure none
  | .reinit start parameter => do
    reinitAt start parameter
    pure none
  | .one place request => on place (Session.serve request)

section Served

variable (w : Warm Float n)

theorem run_serve_performStep : (serve .performStep).run w =
    ⟨((on w.current Session.solve).run w).result.map fun r => some r.toSolution,
      ((on w.current Session.solve).run w).state, ((on w.current Session.solve).run w).trace⟩ :=
  Act.run_bind_pure performStep (fun r => some r.toSolution) w

theorem run_serve_solve : (serve .solve).run w =
    ⟨(solve.run w).result.map some, (solve.run w).state, (solve.run w).trace⟩ :=
  Act.run_bind_pure solve some w

theorem run_serve_setCurrent (v : Value) : (serve (.setCurrent v)).run w =
    ⟨((setCurrent v).run w).result.map fun _ => none, ((setCurrent v).run w).state,
      ((setCurrent v).run w).trace⟩ :=
  Act.run_bind_pure (setCurrent v) (fun _ => none) w

end Served

variable [Scalar α]

def All (Q : Session α n → Prop) (w : Warm α n) : Prop := ∀ s ∈ w.sessions, Q s

variable {Q : Session α n → Prop}

theorem all_cursor (w : Warm α n) (k : Nat) (h : w.All Q) : All Q { w with current := k } := h

theorem keeps_on {x : Act α (Session α n) β} (hx : x.Keeps Q) (i : Nat) :
    (on i x).Keeps (All Q) := by
  apply Act.keeps_of_wp
  intro w hw
  cases hi : w.sessions[i]? with
  | none =>
    rw [wp_on_none hi]
    exact hw
  | some s =>
    have hset : ∀ t, Q t → All Q { w with sessions := w.sessions.set i t } := by
      intro t ht u hu
      rcases List.mem_or_eq_of_mem_set hu with hm | rfl
      · exact hw u hm
      · exact ht
    rw [wp_on hi]
    exact (hx.wp (hw s (List.mem_of_getElem? hi))).mono (fun _ t ht => hset t ht)
      fun _ t ht => hset t ht

section Driving

variable {P : Warm α n → Prop} (hon : ∀ i, (on i Session.solve).Keeps P)
  (hcursor : ∀ (w : Warm α n) (k : Nat), P w → P { w with current := k })

theorem keeps_conclude (w : Warm α n)
    (driven : Option (Nat × Run α n) × List (AttemptRecord α)) : (w.conclude driven).Keeps P := by
  obtain ⟨- | ⟨i, run⟩, records⟩ := driven
  · refine Act.keeps_read.bind fun after => (Act.keeps_ofExcept _).bind fun b => ?_
    exact (Act.keeps_log _).bind fun _ => Act.keeps_pure _
  · exact Act.keeps_read.bind fun after => Act.keeps_pure _

include hcursor

theorem keeps_setCurrent (value : Value) : (setCurrent value).Keeps P := by
  refine Act.keeps_read.bind fun w => ?_
  split
  · exact Act.keeps_raise _
  · exact Act.Keeps.ite (fun _ hw => hcursor _ _ hw) (Act.keeps_raise _)

include hon

omit hcursor in
theorem keeps_performStep : performStep.Keeps P := Act.keeps_read.bind fun w => hon w.current

theorem keeps_drive (norm : Norm α) (left : Nat) (records : List (AttemptRecord α)) :
    (drive norm left records).Keeps P := by
  induction left generalizing records with
  | zero => exact Act.keeps_pure _
  | succ left ih =>
    unfold drive
    refine Act.keeps_read.bind fun w => (keeps_performStep hon).bind fun run => ?_
    refine Act.Keeps.bind ?_ fun _ => Act.Keeps.ite (Act.keeps_pure _) ?_
    · exact Act.keeps_of_wp fun w hw => by rwa [AttemptRecord.wp_report]
    · have hmove : (Act.update fun w : Warm α n => { w with current := w.current + 1 } :
          Act α (Warm α n) Unit).Keeps P := fun _ hw => hcursor _ _ hw
      exact hmove.bind fun _ => ih _

/-- A solve keeps what the solves of the sessions keep and the cursor does not matter for. -/
theorem keeps_solve : solve.Keeps P := by
  have hrest : ∀ w : Warm α n, (drive w.norm (w.sessions.length - w.current) [] >>=
      w.conclude).Keeps P :=
    fun w => (keeps_drive hon hcursor _ _ _).bind fun driven => keeps_conclude w driven
  refine Act.keeps_read.bind fun w => ?_
  dsimp only
  split
  · exact (Act.keeps_log _).bind fun _ => hrest w
  · exact hrest w

end Driving

theorem keeps_reinit {start : Option (List α)} {parameter : Option (Parameter α)}
    (hs : (Session.reinit start parameter).Keeps Q) : (reinit start parameter).Keeps (All Q) :=
  (Act.keeps_each hs).zoom (fun _ hw => hw) fun _ _ _ hss => hss

theorem keeps_reinitAt {P : Warm Float n → Prop} {parameter : Option (Parameter Float)}
    (h : ∀ xs, (reinit xs parameter).Keeps P) (start : Value) :
    (reinitAt start parameter).Keeps P := by
  unfold reinitAt
  split
  · exact h none
  · exact (Act.keeps_ofExcept _).bind fun xs => h (some xs)

end Warm

end Rootfinder
