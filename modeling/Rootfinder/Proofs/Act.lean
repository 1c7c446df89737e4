import Rootfinder.Act

namespace Rootfinder

/-- The class of what is raised. -/
def raisedKind? {β : Type} : Except (Fault Float) β → Option Kind
  | .error e => some e.kind
  | .ok _ => none

namespace Act

variable {α σ τ β γ : Type}

/-- A bind goes on in the state that its first computation left, and reports after it. -/
theorem run_bind (x : Act α σ β) (f : β → Act α σ γ) (s : σ) :
    (x >>= f).run s = match x.run s with
      | ⟨.error e, s', t⟩ => ⟨.error e, s', t⟩
      | ⟨.ok b, s', t⟩ =>
        ⟨((f b).run s').result, ((f b).run s').state, t ++ ((f b).run s').trace⟩ := rfl

theorem run_bind_ok {x : Act α σ β} {s s' : σ} {b : β} {t : List (Event α)}
    (h : x.run s = ⟨.ok b, s', t⟩) (f : β → Act α σ γ) :
    (x >>= f).run s =
      ⟨((f b).run s').result, ((f b).run s').state, t ++ ((f b).run s').trace⟩ := by
  rw [run_bind, h]

theorem run_bind_error {x : Act α σ β} {s s' : σ} {e : Fault α} {t : List (Event α)}
    (h : x.run s = ⟨.error e, s', t⟩) (f : β → Act α σ γ) :
    (x >>= f).run s = ⟨.error e, s', t⟩ := by
  rw [run_bind, h]

theorem run_bind_congr {x : Act α σ β} {s : σ} {f g : β → Act α σ γ}
    (h : ∀ b, (x.run s).result = .ok b → (f b).run (x.run s).state = (g b).run (x.run s).state) :
    (x >>= f).run s = (x >>= g).run s := by
  rcases hx : x.run s with ⟨r, s', t⟩
  rw [hx] at h
  cases r with
  | error e => rw [run_bind_error hx, run_bind_error hx]
  | ok b => rw [run_bind_ok hx, run_bind_ok hx, h b rfl]

@[simp]
theorem run_pure (b : β) (s : σ) : (pure b : Act α σ β).run s = ⟨.ok b, s, []⟩ := rfl

/-- Only the value is changed behind a computation. -/
theorem run_bind_pure (x : Act α σ β) (f : β → γ) (s : σ) : (x >>= fun b => pure (f b)).run s =
    ⟨(x.run s).result.map f, (x.run s).state, (x.run s).trace⟩ := by
  rcases hx : x.run s with ⟨e | b, s', t⟩
  · exact run_bind_error hx _
  · rw [run_bind_ok hx, run_pure, List.append_nil]
    rfl

theorem run_read_bind (f : σ → Act α σ β) (s : σ) : (read >>= f).run s = (f s).run s := rfl

@[simp]
theorem run_attempt (x : Act α σ β) (s : σ) :
    (attempt x).run s = ⟨.ok (x.run s).result, (x.run s).state, (x.run s).trace⟩ := rfl

@[simp]
theorem run_zoom (get : σ → τ) (put : τ → σ → σ) (x : Act α τ β) (s : σ) :
    (zoom get put x).run s =
      ⟨(x.run (get s)).result, put (x.run (get s)).state s, (x.run (get s)).trace⟩ := rfl

@[simp]
theorem run_within (init : τ) (x : Act α τ β) (s : σ) :
    (within init x).run s = ⟨(x.run init).result, s, (x.run init).trace⟩ := rfl

theorem ext {x y : Act α σ β} (h : ∀ s, x.run s = y.run s) : x = y := funext h

private theorem act_bind_pure (x : Act α σ β) : x >>= pure = x := by
  apply ext
  intro s
  rcases h : x.run s with ⟨r, s', t⟩
  cases r with
  | error e => exact run_bind_error h _
  | ok b => rw [run_bind_ok h, run_pure, List.append_nil]

private theorem act_bind_assoc {δ : Type} (x : Act α σ β) (f : β → Act α σ γ)
    (g : γ → Act α σ δ) : x >>= f >>= g = x >>= fun b => f b >>= g := by
  apply ext
  intro s
  rcases h : x.run s with ⟨r, s', t⟩
  cases r with
  | error e => rw [run_bind_error (run_bind_error h f), run_bind_error h]
  | ok b =>
    rw [run_bind_ok h]
    rcases hf : (f b).run s' with ⟨r, s'', u⟩
    have hxf : (x >>= f).run s = ⟨r, s'', t ++ u⟩ := by rw [run_bind_ok h, hf]
    cases r with
    | error e => rw [run_bind_error hxf, run_bind_error hf]
    | ok c => rw [run_bind_ok hxf, run_bind_ok hf, List.append_assoc]

instance : LawfulMonad (Act α σ) :=
  LawfulMonad.mk' _ act_bind_pure (fun _ _ => rfl) act_bind_assoc

theorem ite_bind (c : Prop) [Decidable c] (x y : Act α σ β) (f : β → Act α σ γ) :
    (if c then x else y) >>= f = if c then x >>= f else y >>= f := by
  split <;> rfl

/-- What must hold before a computation so that `post` holds where it returns, and `broken` where
it raises. -/
def wp (x : Act α σ β) (post : β → σ → Prop) (broken : Fault α → σ → Prop) (s : σ) : Prop :=
  match (x.run s).result with
  | .ok b => post b (x.run s).state
  | .error e => broken e (x.run s).state

section Rules

variable {post : β → σ → Prop} {broken : Fault α → σ → Prop} {s : σ}

theorem wp.of_ok {x : Act α σ β} {b : β} (h : x.wp post broken s) (hr : (x.run s).result = .ok b) :
    post b (x.run s).state := by
  simpa only [wp, hr] using h

theorem wp.of_error {x : Act α σ β} {e : Fault α} (h : x.wp post broken s)
    (hr : (x.run s).result = .error e) : broken e (x.run s).state := by
  simpa only [wp, hr] using h

/-- What holds of results and states together, however a computation ends. -/
theorem wp.outcome {x : Act α σ β} {P : Except (Fault α) β → σ → Prop}
    (h : x.wp (fun b t => P (.ok b) t) (fun e t => P (.error e) t) s) :
    P (x.run s).result (x.run s).state := by
  unfold wp at h
  cases hr : (x.run s).result <;> simpa only [hr] using h

/-- What is known of an outcome without looking into the computation. -/
theorem wp_self (x : Act α σ β) (s : σ) :
    x.wp (fun b t => (x.run s).result = .ok b ∧ (x.run s).state = t)
      (fun e t => (x.run s).result = .error e ∧ (x.run s).state = t) s := by
  unfold wp
  cases (x.run s).result <;> exact ⟨rfl, rfl⟩

theorem wp.mono {x : Act α σ β} {post' : β → σ → Prop} {broken' : Fault α → σ → Prop}
    (h : x.wp post broken s) (hp : ∀ b s, post b s → post' b s)
    (hb : ∀ e s, broken e s → broken' e s) : x.wp post' broken' s := by
  unfold wp at h ⊢
  cases hr : (x.run s).result with
  | ok b => simp only [hr] at h; exact hp b _ h
  | error e => simp only [hr] at h; exact hb e _ h

theorem wp.and {x : Act α σ β} {post' : β → σ → Prop} (h : x.wp post broken s)
    (h' : x.wp post' broken s) : x.wp (fun b s => post b s ∧ post' b s) broken s := by
  unfold wp at h h' ⊢
  cases hr : (x.run s).result with
  | ok b =>
    simp only [hr] at h h'
    exact ⟨h, h'⟩
  | error e => simpa only [hr] using h

theorem wp_congr (x : Act α σ β) {post' : β → σ → Prop} (h : ∀ b s, post b s ↔ post' b s) :
    x.wp post broken s ↔ x.wp post' broken s :=
  ⟨fun hx => hx.mono (fun b s => (h b s).mp) fun _ _ he => he,
    fun hx => hx.mono (fun b s => (h b s).mpr) fun _ _ he => he⟩

@[simp]
theorem wp_pure (b : β) : (pure b : Act α σ β).wp post broken s ↔ post b s := Iff.rfl

@[simp]
theorem wp_bind (x : Act α σ γ) (f : γ → Act α σ β) :
    (x >>= f).wp post broken s ↔ x.wp (fun c => (f c).wp post broken) broken s := by
  rcases h : x.run s with ⟨r, s', t⟩
  cases r with
  | error e => simp only [wp, run_bind_error h, h]
  | ok c => simp only [wp, run_bind_ok h, h]

@[simp]
theorem wp_read {post : σ → σ → Prop} : (read : Act α σ σ).wp post broken s ↔ post s s := Iff.rfl

@[simp]
theorem wp_update {post : Unit → σ → Prop} (f : σ → σ) :
    (update f : Act α σ Unit).wp post broken s ↔ post () (f s) := Iff.rfl

@[simp]
theorem wp_raise (e : Fault α) : (raise e : Act α σ β).wp post broken s ↔ broken e s := Iff.rfl

@[simp]
theorem wp_report {post : Unit → σ → Prop} (e : Event α) :
    (report e : Act α σ Unit).wp post broken s ↔ post () s := Iff.rfl

@[simp]
theorem wp_log {post : Unit → σ → Prop} (n : Note α) :
    (log n : Act α σ Unit).wp post broken s ↔ post () s := Iff.rfl

@[simp]
theorem wp_ofExcept_ok (b : β) :
    (ofExcept (.ok b) : Act α σ β).wp post broken s ↔ post b s := Iff.rfl

@[simp]
theorem wp_ofExcept_error (e : Fault α) :
    (ofExcept (.error e) : Act α σ β).wp post broken s ↔ broken e s := Iff.rfl

@[simp]
theorem wp_attempt (x : Act α σ β) {post : Except (Fault α) β → σ → Prop} :
    (attempt x).wp post broken s ↔
      x.wp (fun b => post (.ok b)) (fun e => post (.error e)) s := by
  simp only [wp, run_attempt]
  cases (x.run s).result <;> rfl

@[simp]
theorem wp_zoom (get : σ → τ) (put : τ → σ → σ) (x : Act α τ β) :
    (zoom get put x).wp post broken s ↔
      x.wp (fun b t => post b (put t s)) (fun e t => broken e (put t s)) (get s) := by
  simp only [wp, run_zoom]

@[simp]
theorem wp_within (init : τ) (x : Act α τ β) :
    (within init x).wp post broken s ↔
      x.wp (fun b _ => post b s) (fun e _ => broken e s) init := by
  simp only [wp, run_within]

/-- A computation returns a value, and leaves a state behind. -/
def Returns (x : Act α σ β) (s : σ) (b : β) (s' : σ) : Prop :=
  (x.run s).result = .ok b ∧ (x.run s).state = s'

theorem returns_of_wp {x : Act α σ β} {b : β} {s' : σ}
    (h : x.wp (fun c t => c = b ∧ t = s') (fun _ _ => False) s) : x.Returns s b s' := by
  unfold wp at h
  cases hr : (x.run s).result with
  | error e => simp only [hr] at h
  | ok c =>
    simp only [hr] at h
    exact ⟨by rw [hr, h.1], h.2⟩

theorem Returns.wp_iff {x : Act α σ β} {b : β} {s' : σ} (h : x.Returns s b s') :
    x.wp post broken s ↔ post b s' := by
  simp only [wp, h.1, h.2]

theorem returns_of_isOk {x : Act α σ Unit} (h : (x.run s).result.isOk = true) :
    x.Returns s () (x.run s).state := by
  cases hr : (x.run s).result with
  | error e => rw [hr] at h; cases h
  | ok b => exact ⟨hr, rfl⟩

/-- What follows a computation that returned goes on from there. -/
theorem Returns.bind_result {x : Act α σ β} {b : β} {s' : σ} (h : x.Returns s b s')
    (f : β → Act α σ γ) : ((x >>= f).run s).result = ((f b).run s').result := by
  obtain ⟨hr, rfl⟩ := h
  rcases hx : x.run s with ⟨r, s', t⟩
  rw [hx] at hr
  obtain rfl : r = .ok b := hr
  rw [run_bind_ok hx]

/-- What a computation on a state that was made returns. -/
theorem result_bind_within {x : Act α σ τ} {y : Act α τ β} {b : β}
    (h : ((x >>= fun t => within t y).run s).result = .ok b) :
    ∃ t, (x.run s).result = .ok t ∧ (y.run t).result = .ok b := by
  rcases hx : x.run s with ⟨e | t, s', u⟩
  · rw [run_bind_error hx] at h
    cases h
  · rw [run_bind_ok hx] at h
    exact ⟨t, rfl, h⟩

/-- A computation whose outcome does not matter satisfies what holds after any outcome. -/
theorem wp_of_forall (x : Act α σ β) (hp : ∀ b s', post b s') (hb : ∀ e s', broken e s') :
    x.wp post broken s := by
  unfold wp
  cases (x.run s).result with
  | ok b => exact hp b _
  | error e => exact hb e _

/-- A computation in front of another does not matter to what holds wherever the other starts. -/
theorem wp_skip {x : Act α σ γ} {f : γ → Act α σ β}
    (h : ∀ c s', (f c).wp post (fun _ _ => True) s') : (x >>= f).wp post (fun _ _ => True) s := by
  rw [wp_bind]
  exact wp_of_forall x h fun _ _ => trivial

/-- A post of a computation holds of what it returns. -/
theorem wp.returning {x : Act α σ β} (h : x.wp post broken s) :
    x.wp (fun b t => x.Returns s b t ∧ post b t) broken s := by
  unfold wp at h ⊢
  cases hr : (x.run s).result with
  | ok b =>
    simp only [hr] at h
    exact ⟨⟨hr, rfl⟩, h⟩
  | error e => simpa only [hr] using h

theorem wp.returns {x : Act α σ β} (h : x.wp post (fun _ _ => False) s) :
    ∃ b s', x.Returns s b s' ∧ post b s' := by
  unfold wp at h
  cases hr : (x.run s).result with
  | error e => simp only [hr] at h
  | ok b =>
    simp only [hr] at h
    exact ⟨b, _, ⟨hr, rfl⟩, h⟩

/-- What cannot return raises. -/
theorem wp.raises {x : Act α σ β} (h : x.wp (fun _ _ => False) broken s) :
    ∃ e, (x.run s).result = .error e ∧ broken e (x.run s).state := by
  unfold wp at h
  cases hr : (x.run s).result with
  | ok b => simp only [hr] at h
  | error e =>
    simp only [hr] at h
    exact ⟨e, rfl, h⟩

theorem raises_iff {x : Act α σ β} {e : Fault α} :
    (x.run s).result = .error e ↔ x.wp (fun _ _ => False) (fun e' _ => e' = e) s := by
  constructor
  · intro h
    simp only [wp, h]
  · intro h
    obtain ⟨e', he, rfl⟩ := h.raises
    exact he

/-- Two computations end alike: both return, with related outcomes, or both raise the same. -/
def Alike (x : Act α σ β) (s : σ) (y : Act α τ γ) (t : τ) (R : β → σ → γ → τ → Prop) : Prop :=
  x.wp (fun b s' => y.wp (fun c t' => R b s' c t') (fun _ _ => False) t)
    (fun e _ => y.wp (fun _ _ => False) (fun e' _ => e' = e) t) s

theorem Alike.bind {δ ε : Type} {x : Act α σ β} {y : Act α τ γ} {t : τ}
    {R : β → σ → γ → τ → Prop} {R' : δ → σ → ε → τ → Prop} (h : Alike x s y t R)
    {f : β → Act α σ δ} {g : γ → Act α τ ε}
    (hf : ∀ b s' c t', R b s' c t' → Alike (f b) s' (g c) t' R') :
    Alike (x >>= f) s (y >>= g) t R' := by
  unfold Alike at h ⊢
  rw [wp_bind]
  refine h.mono (fun b s' hy => ?_) (fun e _ hy => ?_)
  · obtain ⟨c, t', hc, hr⟩ := hy.returns
    simp only [wp_bind, hc.wp_iff]
    exact hf b s' c t' hr
  · rw [wp_bind]
    exact hy.mono (fun _ _ hn => hn.elim) fun _ _ he => he

theorem Alike.result_map {x : Act α σ β} {y : Act α τ γ} {t : τ} {f : γ → β}
    (h : Alike x s y t fun b _ c _ => b = f c) :
    (x.run s).result = (y.run t).result.map f := by
  unfold Alike wp at h
  cases hx : (x.run s).result <;> cases hy : (y.run t).result <;> simp only [hx, hy] at h
  · rw [h]; rfl
  · rw [h]; rfl

end Rules

/-- A computation leaves a state with some property, however it ends, if it found one. -/
def Keeps (x : Act α σ β) (P : σ → Prop) : Prop := ∀ s, P s → P (x.run s).state

section Keeping

variable {P : σ → Prop}

theorem Keeps.wp {x : Act α σ β} (h : x.Keeps P) {s : σ} (hs : P s) :
    x.wp (fun _ => P) (fun _ => P) s := by
  unfold Act.wp
  cases (x.run s).result <;> exact h s hs

theorem Keeps.wp_returns {x : Act α σ β} (h : x.Keeps P) {s : σ} (hs : P s) :
    x.wp (fun b t => x.Returns s b t ∧ P t) (fun _ => P) s := (h.wp hs).returning

theorem keeps_of_wp {x : Act α σ β} (h : ∀ s, P s → x.wp (fun _ => P) (fun _ => P) s) :
    x.Keeps P := by
  intro s hs
  have hw := h s hs
  unfold Act.wp at hw
  cases hr : (x.run s).result <;> simpa only [hr] using hw

theorem keeps_pure (b : β) : (pure b : Act α σ β).Keeps P := fun _ hs => hs

theorem keeps_read : (read : Act α σ σ).Keeps P := fun _ hs => hs

theorem keeps_raise (e : Fault α) : (raise e : Act α σ β).Keeps P := fun _ hs => hs

theorem keeps_log (n : Note α) : (log n : Act α σ Unit).Keeps P := fun _ hs => hs

theorem keeps_report (e : Event α) : (report e : Act α σ Unit).Keeps P := fun _ hs => hs

theorem keeps_update {f : σ → σ} (h : ∀ s, P s → P (f s)) : (update f : Act α σ Unit).Keeps P := h

theorem keeps_ofExcept (r : Except (Fault α) β) : (ofExcept r : Act α σ β).Keeps P := by
  cases r with
  | ok b => exact keeps_pure b
  | error e => exact keeps_raise e

theorem Keeps.bind {x : Act α σ β} {f : β → Act α σ γ} (hx : x.Keeps P)
    (hf : ∀ b, (f b).Keeps P) : (x >>= f).Keeps P := by
  intro s hs
  have hs' := hx s hs
  rcases h : x.run s with ⟨r, s', t⟩
  rw [h] at hs'
  cases r with
  | error e => rw [run_bind_error h]; exact hs'
  | ok b => rw [run_bind_ok h]; exact hf b s' hs'

/-- The second computation may rely on what the first tells about its value. -/
theorem Keeps.bind_of {R : β → Prop} {x : Act α σ β} {f : β → Act α σ γ}
    (hx : ∀ s, P s → x.wp (fun b s' => P s' ∧ R b) (fun _ => P) s)
    (hf : ∀ b, R b → (f b).Keeps P) : (x >>= f).Keeps P := by
  apply keeps_of_wp
  intro s hs
  rw [wp_bind]
  exact (hx s hs).mono (fun b s' h => (hf b h.2).wp h.1) (fun _ _ h => h)

theorem Keeps.attempt {x : Act α σ β} (hx : x.Keeps P) : (attempt x).Keeps P := hx

/-- A computation on a part keeps what does not depend on the part. -/
theorem keeps_zoom {get : σ → τ} {put : τ → σ → σ} (x : Act α τ β)
    (h : ∀ t s, P s → P (put t s)) : (zoom get put x).Keeps P := fun s hs => h _ s hs

/-- A computation on a part keeps what it keeps of the part. -/
theorem Keeps.zoom {Q : τ → Prop} {get : σ → τ} {put : τ → σ → σ} {x : Act α τ β}
    (hx : x.Keeps Q) (hget : ∀ s, P s → Q (get s)) (hput : ∀ t s, P s → Q t → P (put t s)) :
    (zoom get put x).Keeps P :=
  fun s hs => hput _ s hs (hx _ (hget s hs))

theorem Keeps.ite {c : Prop} [Decidable c] {x y : Act α σ β} (hx : x.Keeps P) (hy : y.Keeps P) :
    (if c then x else y).Keeps P := by
  split
  · exact hx
  · exact hy

end Keeping

end Act

end Rootfinder
