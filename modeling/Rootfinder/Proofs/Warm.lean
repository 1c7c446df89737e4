import Rootfinder.Fallback.Warm
import Rootfinder.Proofs.Ranking
import Rootfinder.Proofs.Sessions

namespace Rootfinder

variable {α β : Type}

@[simp]
theorem AttemptRecord.wp_report {σ : Type} (total failures : Nat) (a : AttemptRecord α) {s : σ}
    {post : Unit → σ → Prop} {broken : Fault α → σ → Prop} :
    (a.report total failures : Act α σ Unit).wp post broken s ↔ post () s := by
  unfold report
  split
  · split <;> simp
  · split <;> simp

namespace Warm

variable [Scalar α] {n : Nat} {w : Warm α n}

/-- The sessions from the cursor up to `stop` driven to their ends, under a new cursor. -/
def advanced (w : Warm α n) (stop cursor : Nat) : Warm α n :=
  ⟨w.owner, w.sessions.mapIdx fun j s => if w.current ≤ j ∧ j < stop then s.driven else s, cursor⟩

/-- The records of the runs from the cursor up to `stop`. -/
def records (w : Warm α n) (runs : Nat → Run α n) (norm : Norm α) (stop : Nat) :
    List (AttemptRecord α) :=
  (List.range' w.current (stop - w.current)).map fun j => (runs j).record norm j

/-- The sessions from the cursor up to `stop` return runs. -/
def Arrives (w : Warm α n) (runs : Nat → Run α n) (stop : Nat) : Prop :=
  ∀ j s, w.current ≤ j → j < stop → w.sessions[j]? = some s → s.outcome = .ok (runs j)

@[simp]
theorem advanced_current (w : Warm α n) (stop cursor : Nat) :
    (w.advanced stop cursor).current = cursor := rfl

@[simp]
theorem advanced_length (w : Warm α n) (stop cursor : Nat) :
    (w.advanced stop cursor).sessions.length = w.sessions.length := by
  simp [advanced]

theorem advanced_getElem? (w : Warm α n) (stop cursor j : Nat) :
    (w.advanced stop cursor).sessions[j]? =
      (w.sessions[j]?).map fun s => if w.current ≤ j ∧ j < stop then s.driven else s := by
  simp [advanced]

theorem ext_places {v w : Warm α n} (ho : v.owner = w.owner)
    (hs : ∀ j : Nat, v.sessions[j]? = w.sessions[j]?) (hc : v.current = w.current) : v = w := by
  cases v
  cases w
  obtain rfl := List.ext_getElem? hs
  simp_all only

/-- Nothing is driven up to the cursor. -/
theorem advanced_self (w : Warm α n) : w.advanced w.current w.current = w := by
  refine ext_places rfl (fun j => ?_) rfl
  have h : ¬ (w.current ≤ j ∧ j < w.current) := by omega
  simp only [advanced_getElem?, h, if_false, Option.map_id']

/-- Driving further from where the cursor was left is driving it all. -/
theorem advanced_advanced (w : Warm α n) {mid stop : Nat} (h₁ : w.current ≤ mid) (h₂ : mid ≤ stop)
    (cursor : Nat) : (w.advanced mid mid).advanced stop cursor = w.advanced stop cursor := by
  refine ext_places rfl (fun j => ?_) rfl
  simp only [advanced_getElem?, advanced_current, Option.map_map]
  congr 1
  funext s
  by_cases hj : j < mid
  · have hm : ¬ mid ≤ j := by omega
    simp [hm, hj, show j < stop by omega]
  · simp [hj, show mid ≤ j by omega, show w.current ≤ j by omega]

theorem advanced_succ (w : Warm α n) {s : Session α n} (hs : w.sessions[w.current]? = some s)
    (cursor : Nat) : w.advanced (w.current + 1) cursor =
      ⟨w.owner, w.sessions.set w.current s.driven, cursor⟩ := by
  refine ext_places rfl (fun j => ?_) rfl
  rw [advanced_getElem?, List.getElem?_set]
  obtain ⟨hlt, hget⟩ := List.getElem?_eq_some_iff.mp hs
  by_cases hj : w.current = j
  · subst hj
    simp [hlt, hget]
  · have hne : ¬ (w.current ≤ j ∧ j < w.current + 1) := by omega
    rw [if_neg hj]
    simp only [hne, if_false, Option.map_id']

@[simp]
theorem advanced_problem? (w : Warm α n) (stop cursor : Nat) :
    (w.advanced stop cursor).problem? = w.problem? := by
  simp only [problem?, List.head?_eq_getElem?, advanced_getElem?, Option.map_map]
  congr 1
  funext s
  simp only [Function.comp_apply]
  split
  · exact s.driven_problem
  · rfl

variable {post : β → Warm α n → Prop} {broken : Fault α → Warm α n → Prop}

theorem wp_on {i : Nat} {s : Session α n} (hs : w.sessions[i]? = some s)
    (x : Act α (Session α n) β) :
    (on i x).wp post broken w ↔ x.wp (fun b t => post b { w with sessions := w.sessions.set i t })
      (fun e t => broken e { w with sessions := w.sessions.set i t }) s := by
  unfold on Act.wp Act.run
  simp only [hs]

theorem wp_on_none {i : Nat} (hs : w.sessions[i]? = none) (x : Act α (Session α n) β) :
    (on i x).wp post broken w ↔ broken (.cannotStep i w.sessions.length) w := by
  unfold on Act.wp Act.run
  simp only [hs]

theorem returns_performStep {s : Session α n} {r : Run α n} (hs : w.sessions[w.current]? = some s)
    (hr : s.outcome = .ok r) :
    performStep.Returns w r (w.advanced (w.current + 1) w.current) := by
  apply Act.returns_of_wp
  rw [performStep, Act.wp_bind, Act.wp_read, wp_on hs, (Session.returns_solve hr).wp_iff]
  exact ⟨rfl, (advanced_succ w hs _).symm⟩

variable {runs : Nat → Run α n} {norm : Norm α}

theorem Arrives.mono {stop stop' : Nat} (h : w.Arrives runs stop) (hs : stop' ≤ stop) :
    w.Arrives runs stop' :=
  fun j s hj hl => h j s hj (by omega)

theorem records_append (w : Warm α n) (runs : Nat → Run α n) (norm : Norm α) {mid stop : Nat}
    (h₁ : w.current ≤ mid) (h₂ : mid ≤ stop) :
    w.records runs norm mid ++ (w.advanced mid mid).records runs norm stop =
      w.records runs norm stop := by
  unfold records
  rw [advanced_current, ← List.map_append, show mid = w.current + (mid - w.current) by omega,
    Nat.add_sub_cancel_left, List.range'_append_1]
  congr 2
  omega

/-- A session that fails is passed. -/
theorem wp_drive_failed {s : Session α n} {r : Run α n} (hs : w.sessions[w.current]? = some s)
    (hr : s.outcome = .ok r) (hf : r.success = false) (left : Nat)
    (records : List (AttemptRecord α))
    {post : Option (Nat × Run α n) × List (AttemptRecord α) → Warm α n → Prop} :
    (drive norm (left + 1) records).wp post broken w ↔
      (drive norm left (records ++ [r.record norm w.current])).wp post broken
        (w.advanced (w.current + 1) (w.current + 1)) := by
  rw [drive, Act.wp_bind, Act.wp_read, Act.wp_bind, (returns_performStep hs hr).wp_iff,
    Act.wp_bind, AttemptRecord.wp_report]
  simp only [hf, Bool.false_eq_true, if_false, Act.wp_bind, Act.wp_update]
  rfl

theorem wp_drive_won {s : Session α n} {r : Run α n} (hs : w.sessions[w.current]? = some s)
    (hr : s.outcome = .ok r) (hw : r.success = true) (left : Nat)
    (records : List (AttemptRecord α))
    {post : Option (Nat × Run α n) × List (AttemptRecord α) → Warm α n → Prop} :
    (drive norm (left + 1) records).wp post broken w ↔
      post (some (w.current, r), records ++ [r.record norm w.current])
        (w.advanced (w.current + 1) w.current) := by
  rw [drive, Act.wp_bind, Act.wp_read, Act.wp_bind, (returns_performStep hs hr).wp_iff,
    Act.wp_bind, AttemptRecord.wp_report]
  simp only [hw, if_true]
  rfl

theorem Arrives.advanced {mid stop : Nat} (h : w.Arrives runs stop)
    (hm : w.current ≤ mid) : (w.advanced mid mid).Arrives runs stop := by
  intro j s hj hl hs
  have hn : ¬ (w.current ≤ j ∧ j < mid) := fun hc => absurd hc.2 (Nat.not_lt.mpr hj)
  rw [advanced_getElem?] at hs
  simp only [hn, if_false, Option.map_id'] at hs
  exact h j s (hm.trans hj) hl hs

/-- Sessions that fail are passed one after the other. -/
theorem wp_drive_failing {m : Nat} (hm : w.current + m ≤ w.sessions.length)
    (ha : w.Arrives runs (w.current + m))
    (hf : ∀ j, w.current ≤ j → j < w.current + m → (runs j).success = false) (left : Nat)
    (records : List (AttemptRecord α))
    {post : Option (Nat × Run α n) × List (AttemptRecord α) → Warm α n → Prop} :
    (drive norm (left + m) records).wp post broken w ↔
      (drive norm left (records ++ w.records runs norm (w.current + m))).wp post broken
        (w.advanced (w.current + m) (w.current + m)) := by
  induction m generalizing w records with
  | zero => simp [Warm.records, advanced_self]
  | succ m ih =>
    have hlt : w.current < w.sessions.length := by omega
    have hs : w.sessions[w.current]? = some w.sessions[w.current] := List.getElem?_eq_getElem hlt
    have hr := ha _ _ (Nat.le_refl _) (by omega) hs
    have hf' := hf w.current (Nat.le_refl _) (by omega)
    have hnext : w.records runs norm (w.current + 1) =
        [(runs w.current).record norm w.current] := by
      simp [Warm.records]
    have hrest := records_append w runs norm (Nat.le_succ w.current)
      (show w.current + 1 ≤ w.current + 1 + m by omega)
    have hm' : w.current + 1 + m ≤
        (w.advanced (w.current + 1) (w.current + 1)).sessions.length := by
      rw [advanced_length]
      omega
    have ha' : (w.advanced (w.current + 1) (w.current + 1)).Arrives runs
        (w.current + 1 + m) := by
      rw [Nat.add_right_comm]
      exact ha.advanced (Nat.le_succ _)
    rw [← Nat.add_assoc left, wp_drive_failed hs hr hf', ih hm' ha', advanced_current,
      advanced_advanced w (by omega) (by omega), List.append_assoc, ← hnext, hrest,
      Nat.add_right_comm]
    · rfl
    · intro j hj hl
      rw [advanced_current] at hj hl
      exact hf j (by omega) (by omega)

theorem returns_drive_won {i : Nat} (hi : w.current ≤ i) (hlt : i < w.sessions.length)
    (ha : w.Arrives runs (i + 1)) (hw : (runs i).success = true)
    (hf : ∀ j, w.current ≤ j → j < i → (runs j).success = false) :
    (drive norm (w.sessions.length - w.current) []).Returns w
      (some (i, runs i), w.records runs norm (i + 1)) (w.advanced (i + 1) i) := by
  have hk : w.sessions.length - w.current =
      w.sessions.length - (i + 1) + 1 + (i - w.current) := by omega
  have hi' : w.current + (i - w.current) = i := by omega
  have hs : (w.advanced i i).sessions[i]? = some w.sessions[i] := by
    rw [advanced_getElem?, List.getElem?_eq_getElem hlt]
    simp
  have hr := ha i _ hi (Nat.lt_succ_self i) (List.getElem?_eq_getElem hlt)
  have hone : (w.advanced i i).records runs norm (i + 1) = [(runs i).record norm i] := by
    simp [records]
  apply Act.returns_of_wp
  rw [hk, wp_drive_failing (by omega) (by rw [hi']; exact ha.mono (Nat.le_succ i))
    (by rw [hi']; exact hf), hi', wp_drive_won hs hr hw, advanced_current,
    advanced_advanced w hi (Nat.le_succ i), List.nil_append, ← hone,
    records_append w runs norm hi (Nat.le_succ i)]
  exact ⟨rfl, rfl⟩

theorem returns_drive_lost (hk : w.current ≤ w.sessions.length)
    (ha : w.Arrives runs w.sessions.length)
    (hf : ∀ j, w.current ≤ j → j < w.sessions.length → (runs j).success = false) :
    (drive norm (w.sessions.length - w.current) []).Returns w
      (none, w.records runs norm w.sessions.length)
      (w.advanced w.sessions.length w.sessions.length) := by
  have hk' : w.current + (w.sessions.length - w.current) = w.sessions.length := by omega
  apply Act.returns_of_wp
  rw [← Nat.zero_add (w.sessions.length - w.current), wp_drive_failing (by omega)
    (by rw [hk']; exact ha) (by rw [hk']; exact hf), hk']
  exact ⟨rfl, rfl⟩

variable {post : Solution α n → Warm α n → Prop}

/-- The warning about a cursor behind the last session changes nothing. -/
theorem wp_solve : solve.wp post broken w ↔
    (drive w.norm (w.sessions.length - w.current) []).wp
      (fun driven after => (w.conclude driven).wp post broken after) broken w := by
  unfold solve
  rw [Act.wp_bind, Act.wp_read]
  split
  · rw [Act.wp_bind, Act.wp_log, Act.wp_bind]
  · rw [Act.wp_bind]

theorem wp_conclude_won {after : Warm α n} (i : Nat) (run : Run α n)
    (records : List (AttemptRecord α)) :
    (w.conclude (some (i, run), records)).wp post broken after ↔
      post (run.wrap w.owner after.problem? i records .success) after := Iff.rfl

theorem wp_conclude_lost {after : Warm α n} {b : Nat} {s : Session α n}
    (hb : Selection.selectBest (fun s => s.residualNorm (some w.norm)) after.sessions = .ok (b, s))
    (records : List (AttemptRecord α)) :
    (w.conclude (none, records)).wp post broken after ↔
      post (s.snapshot.wrap w.owner after.problem? b records .maxIters) after := by
  rw [conclude, Act.wp_bind, Act.wp_read, hb]
  exact Iff.rfl

/-- Where a session from the cursor on succeeds, the first to do so gives the result. -/
theorem returns_solve_won {i : Nat} (hi : w.current ≤ i) (hlt : i < w.sessions.length)
    (ha : w.Arrives runs (i + 1)) (hw : (runs i).success = true)
    (hf : ∀ j, w.current ≤ j → j < i → (runs j).success = false) :
    solve.Returns w ((runs i).wrap w.owner w.problem? i (w.records runs w.norm (i + 1)) .success)
      (w.advanced (i + 1) i) := by
  apply Act.returns_of_wp
  rw [wp_solve, (returns_drive_won hi hlt ha hw hf).wp_iff, wp_conclude_won, advanced_problem?]
  exact ⟨rfl, rfl⟩

/-- Where none succeeds, the choice is among all sessions as they are then. -/
theorem returns_solve_lost (hk : w.current ≤ w.sessions.length)
    (ha : w.Arrives runs w.sessions.length)
    (hf : ∀ j, w.current ≤ j → j < w.sessions.length → (runs j).success = false)
    {b : Nat} {s : Session α n} (hb : Selection.selectBest (fun s => s.residualNorm (some w.norm))
      (w.advanced w.sessions.length w.sessions.length).sessions = .ok (b, s)) :
    solve.Returns w (s.snapshot.wrap w.owner w.problem? b
      (w.records runs w.norm w.sessions.length) .maxIters)
      (w.advanced w.sessions.length w.sessions.length) := by
  apply Act.returns_of_wp
  rw [wp_solve, (returns_drive_lost hk ha hf).wp_iff, wp_conclude_lost hb, advanced_problem?]
  exact ⟨rfl, rfl⟩

theorem Arrives.terminated {stop cursor : Nat} (h : w.Arrives runs stop) {j : Nat}
    {s : Session α n} (hj : w.current ≤ j) (hl : j < stop)
    (hs : (w.advanced stop cursor).sessions[j]? = some s) : s.iteration.terminated = true := by
  rw [advanced_getElem?] at hs
  obtain ⟨t, ht, rfl⟩ := Option.map_eq_some_iff.mp hs
  rw [if_pos ⟨hj, hl⟩]
  exact Session.driven_terminated (h j t hj hl ht)

/-- A solve from any cursor on sessions in any states. Its result is the first run to succeed, or
the first of the least residuals under the norm of the first session; either way the sessions that
were driven have ended and no other has changed. -/
theorem solve_spec {w : Warm Float n} (hne : w.sessions ≠ []) (hk : w.current ≤ w.sessions.length)
    (runs : Nat → Run Float n) :
    (∀ i, w.current ≤ i → i < w.sessions.length → w.Arrives runs (i + 1) →
      (runs i).code = .success → (∀ j, w.current ≤ j → j < i → (runs j).code ≠ .success) →
      solve.Returns w
        { u := (runs i).u, resid := (runs i).resid, code := .success, stats := (runs i).stats,
          solver := some w.owner.title, problem := w.problem?, original := some (runs i),
          candidate := some i, attempts := w.records runs w.norm (i + 1) }
        (w.advanced (i + 1) i) ∧
      ∀ j s, w.current ≤ j → j ≤ i → (w.advanced (i + 1) i).sessions[j]? = some s →
        s.iteration.terminated = true) ∧
    (w.Arrives runs w.sessions.length →
      (∀ j, w.current ≤ j → j < w.sessions.length → (runs j).code ≠ .success) →
      ∃ b s, Selection.Least (fun s => w.norm.of s.iteration.fu)
          (w.advanced w.sessions.length w.sessions.length).sessions b s ∧
        solve.Returns w
          { u := s.iteration.u, resid := s.iteration.fu, code := .maxIters,
            stats := s.iteration.stats, solver := some w.owner.title, problem := w.problem?,
            original := some s.snapshot, candidate := some b,
            attempts := w.records runs w.norm w.sessions.length }
          (w.advanced w.sessions.length w.sessions.length) ∧
        ∀ j t, w.current ≤ j →
          (w.advanced w.sessions.length w.sessions.length).sessions[j]? = some t →
          t.iteration.terminated = true) := by
  have hfail : ∀ r : Run Float n, r.code ≠ .success → r.success = false := by
    intro r hr
    simpa [Run.success, ReturnCode.isSuccess] using hr
  refine ⟨fun i hi hlt ha hw hf => ⟨?_, fun j s hj hl hs => ?_⟩, fun ha hf => ?_⟩
  · have hw' : (runs i).success = true := by rw [Run.success, hw]; rfl
    exact returns_solve_won hi hlt ha hw' fun j hj hl => hfail _ (hf j hj hl)
  · exact ha.terminated hj (by omega) hs
  · have hne' : (w.advanced w.sessions.length w.sessions.length).sessions ≠ [] := by
      rw [← List.length_pos_iff, advanced_length]
      exact List.length_pos_iff.mpr hne
    obtain ⟨b, s, hb, hl⟩ := @Selection.selectBest_least (Session Float n)
      (fun s => w.norm.of s.iteration.fu) _ hne'
    refine ⟨b, s, hl, ?_, fun j t hj ht => ?_⟩
    · exact returns_solve_lost hk ha (fun j hj hl => hfail _ (hf j hj hl)) hb
    · have hlt := (List.getElem?_eq_some_iff.mp ht).1
      rw [advanced_length] at hlt
      exact ha.terminated hj hlt ht

def stagedSession (label : String) (code : ReturnCode) (x : Float) : Session Float 1 :=
  ⟨.replay ⟨label, some code, [x], [x], 1, true⟩, ⟨1e-10, 10, .inf⟩,
    ⟨⟨.outOfPlace (fun u _ => .ok u) none, #v[1.0], .absent⟩, #v[1.0], #v[1.0], .default, false,
      {}, ()⟩⟩

/-- Two scripted sessions; the first stalls, the second ends as it is told. -/
def staged (code : ReturnCode) : Warm Float 1 :=
  ⟨⟨"staged", "staged"⟩, [stagedSession "first" .stalled 0.5, stagedSession "second" code 0.25], 0⟩

def stagedRun (code : ReturnCode) : Nat → Run Float 1
  | 0 => (stagedSession "first" .stalled 0.5).driven.snapshot
  | _ => (stagedSession "second" code 0.25).driven.snapshot

theorem staged_arrives (code : ReturnCode) : (staged code).Arrives (stagedRun code) 2 := by
  intro j s _ hj hs
  match j, hj with
  | 0, _ =>
    obtain rfl := Option.some.inj hs
    exact Session.outcome_of_isOk (by decide +kernel)
  | 1, _ =>
    obtain rfl := Option.some.inj hs
    exact Session.outcome_of_isOk (by cases code <;> decide +kernel)

theorem solve_spec_staged :
    (∃ sol, solve.Returns (staged .success) sol ((staged .success).advanced 2 1) ∧
      sol.candidate = some 1) ∧
    ∃ sol, solve.Returns (staged .failure) sol ((staged .failure).advanced 2 2) ∧
      sol.code = .maxIters := by
  constructor
  · obtain ⟨hw, -⟩ := solve_spec (w := staged .success) (by simp [staged]) (by decide)
      (stagedRun .success)
    obtain ⟨h, -⟩ := hw 1 (by decide) (by decide) (staged_arrives _) (by decide +kernel) (by
      intro j _ hj
      obtain rfl : j = 0 := by omega
      decide +kernel)
    exact ⟨_, h, rfl⟩
  · obtain ⟨-, hl⟩ := solve_spec (w := staged .failure) (by simp [staged]) (by decide)
      (stagedRun .failure)
    obtain ⟨b, s, -, h, -⟩ := hl (staged_arrives _) (by
      intro j _ hj
      match j, hj with
      | 0, _ => decide +kernel
      | 1, _ => decide +kernel)
    exact ⟨_, h, rfl⟩

end Warm

end Rootfinder
