import Rootfinder.Proofs.Interleaving

namespace Rootfinder

theorem Act.each_length {α σ : Type} {x : Act α σ Unit} (ss : List σ) :
    ((each x).run ss).state.length = ss.length := by
  have hk : ∀ k, (each x).Keeps fun ss => ss.length = k := by
    intro k
    apply keeps_of_wp
    intro ss
    induction ss generalizing k with
    | nil => exact id
    | cons s ss ih =>
      intro hss
      obtain rfl : ss.length + 1 = k := hss
      rw [wp_each_cons]
      refine wp_of_forall _ (fun _ s' => ?_) fun _ s' => rfl
      exact (ih _ rfl).mono (fun _ ss' h => congrArg (· + 1) h) fun _ ss' h => congrArg (· + 1) h
  exact hk _ ss rfl

namespace Warm

section Solving

variable {α : Type} [Scalar α] {n : Nat} {w : Warm α n} {runs : Nat → Run α n}

/-- The sessions from a place up to another are over and have failed. -/
def Spent (w : Warm α n) (first stop : Nat) : Prop :=
  ∀ (j : Nat) (s : Session α n), first ≤ j → j < stop → w.sessions[j]? = some s →
    s.iteration.terminated = true ∧ s.iteration.code ≠ .success

theorem Fails.spent {i stop : Nat} (h : w.Fails runs i) (hs : i ≤ stop) (cursor : Nat) :
    (w.advanced stop cursor).Spent w.current i := by
  intro j t hj hl ht
  rw [advanced_getElem?] at ht
  obtain ⟨s, hs, rfl⟩ := Option.map_eq_some_iff.mp ht
  have hr := h.arrives j s hj hl hs
  have hfailed := h.failed j hj hl
  rw [Session.outcome_snapshot hr, Run.success] at hfailed
  rw [if_pos ⟨hj, by omega⟩]
  refine ⟨Session.driven_terminated hr, fun hc => ?_⟩
  have hsuccess : s.driven.snapshot.code.isSuccess = true := congrArg ReturnCode.isSuccess hc
  rw [hsuccess] at hfailed
  cases hfailed

variable (w) in
/-- How a solve ends, and where it leaves the cursor. -/
inductive Solved : Except (Fault α) (Solution α n) → Warm α n → Prop where
  | won {w' : Warm α n} {sol : Solution α n} {s : Session α n} (hcode : sol.code = .success)
    (hle : w.current ≤ w'.current) (hs : w'.sessions[w'.current]? = some s)
    (hover : s.iteration.terminated = true) (hsuccess : s.iteration.code = .success)
    (hcandidate : sol.candidate = some w'.current) (horiginal : sol.original = some s.snapshot)
    (hspent : w'.Spent w.current w'.current) : Solved (.ok sol) w'
  | lost {w' : Warm α n} {sol : Solution α n} (hcode : sol.code ≠ .success)
    (hend : w'.current = w.sessions.length) (hspent : w'.Spent w.current w'.current) :
    Solved (.ok sol) w'
  | raised {w' : Warm α n} {s : Session α n} {e : Fault α} (hle : w.current ≤ w'.current)
    (hs : w.sessions[w'.current]? = some s) (he : s.outcome = .error e)
    (hspent : w'.Spent w.current w'.current) : Solved (.error e) w'

theorem solved (hk : w.current ≤ w.sessions.length) (hne : w.sessions ≠ []) :
    w.Solved (solve.run w).result (solve.run w).state := by
  obtain ⟨d, -⟩ := List.exists_mem_of_ne_nil _ hne
  cases fate d hk with
  | won i hi hlt hf ha hw =>
    have hs := List.getElem?_eq_getElem hlt
    have hr := ha i _ hi (Nat.lt_succ_self i) hs
    have harrived := Session.outcome_snapshot hr
    have hret := returns_solve_won hi hlt ha hw hf.failed
    have hlast : (w.advanced (i + 1) i).sessions[i]? = some w.sessions[i].driven := by
      rw [advanced_getElem?, hs, Option.map_some, if_pos ⟨hi, Nat.lt_succ_self i⟩]
    have hsuccess : (w.arrival d i).code = .success := eq_of_beq hw
    rw [harrived] at hsuccess
    rw [hret.1, hret.2]
    exact .won rfl hi hlast (Session.driven_terminated hr) hsuccess rfl (congrArg some harrived)
      (hf.spent (Nat.le_succ i) i)
  | lost hf =>
    have hne' : (w.advanced w.sessions.length w.sessions.length).sessions ≠ [] := by
      rw [← List.length_pos_iff, advanced_length]
      exact List.length_pos_iff.mpr hne
    obtain ⟨b, s, hb⟩ := Selection.selectBest_ok
      (fun s : Session α n => s.residualNorm (some w.norm)) hne'
    have hret := returns_solve_lost hk hf.arrives hf.failed hb
    rw [hret.1, hret.2]
    exact .lost nofun rfl (hf.spent (Nat.le_refl _) _)
  | raised i hi hf s hs e he =>
    obtain ⟨hresult, hstate⟩ := solve_raises hi hf hs he
    rw [hresult, hstate]
    exact .raised hi hs he (hf.spent (Nat.le_succ i) i)

theorem Solved.le_current {r : Except (Fault α) (Solution α n)} {w' : Warm α n} (h : w.Solved r w')
    (hk : w.current ≤ w.sessions.length) : w.current ≤ w'.current := by
  cases h with
  | won _ hle => exact hle
  | lost _ hend => exact hend ▸ hk
  | raised hle => exact hle

/-- A step behind the last session is refused; otherwise the session at the cursor is driven. -/
theorem performStep_error (hk : w.current ≤ w.sessions.length) (e : Fault α) :
    (performStep.run w).result = .error e ↔
      w.current = w.sessions.length ∧ e = .cannotStep w.current w.sessions.length ∨
        ∃ s, w.sessions[w.current]? = some s ∧ s.outcome = .error e := by
  have hrun : performStep.run w = (on w.current Session.solve).run w := rfl
  cases hs : w.sessions[w.current]? with
  | none =>
    have hend : w.current = w.sessions.length :=
      Nat.le_antisymm hk (List.getElem?_eq_none_iff.mp hs)
    rw [hrun, on_none hs]
    constructor
    · intro h
      exact .inl ⟨hend, (Except.error.inj h).symm⟩
    · rintro (⟨-, rfl⟩ | ⟨s, hsome, -⟩)
      · rfl
      · cases hsome
  | some s =>
    have hlt := (List.getElem?_eq_some_iff.mp hs).1
    rw [hrun, on_some hs]
    constructor
    · intro h
      exact .inr ⟨s, rfl, h⟩
    · rintro (⟨hend, -⟩ | ⟨t, ht, he⟩)
      · omega
      · obtain rfl := Option.some.inj ht
        exact he

/-- An assignment is refused and changes nothing, or puts the cursor where it says. -/
theorem setCurrent_cases (w : Warm α n) (v : Value) :
    (∃ k : Nat, v.truncated = .ok (k : Int) ∧ k ≤ w.sessions.length ∧
      (setCurrent v).run w = ⟨.ok (), { w with current := k }, []⟩) ∨
    ∃ e, (setCurrent v).run w = ⟨.error e, w, []⟩ ∧
      ∀ k, v.truncated = .ok k → ¬ (0 ≤ k ∧ k ≤ w.sessions.length) := by
  rw [setCurrent, Act.run_read_bind]
  cases hv : v.truncated with
  | error e => exact .inr ⟨_, rfl, nofun⟩
  | ok k =>
    simp only
    split
    · rename_i hin
      obtain ⟨h₀, hle⟩ := hin
      obtain ⟨k, rfl⟩ := Int.eq_ofNat_of_zero_le h₀
      exact .inl ⟨k, rfl, by omega, rfl⟩
    · rename_i hout
      refine .inr ⟨_, rfl, fun j hj => ?_⟩
      obtain rfl := Except.ok.inj hj
      exact hout

end Solving

section Histories

variable {n count : Nat} {w : Warm Float n} {v : Value}

/-- A number of sessions, with the cursor on one of them or behind the last. -/
structure Placed (count : Nat) (w : Warm Float n) : Prop where
  length : w.sessions.length = count
  current : w.current ≤ count

theorem ofSessions_eq_ok {owner : Solver} {sessions : List (Session Float n)} :
    ofSessions owner sessions = .ok w ↔ sessions ≠ [] ∧ w = ⟨owner, sessions, 0⟩ := by
  unfold ofSessions
  cases sessions with
  | nil => exact iff_of_false nofun fun h => h.1 rfl
  | cons s ss =>
    exact ⟨fun h => ⟨nofun, (Except.ok.inj h).symm⟩, fun h => congrArg Except.ok h.2.symm⟩

theorem Placed.current_le (h : w.Placed count) : w.current ≤ w.sessions.length :=
  h.length ▸ h.current

theorem Placed.ne_nil (h : w.Placed count) (hc : 0 < count) : w.sessions ≠ [] :=
  List.length_pos_iff.mp (h.length ▸ hc)

theorem on_length {β : Type} (i : Nat) (x : Act Float (Session Float n) β) :
    ((on i x).run w).state.sessions.length = w.sessions.length := by
  cases hs : w.sessions[i]? with
  | none => rw [on_none hs]
  | some s =>
    rw [on_some hs]
    exact List.length_set

/-- Requests that leave the cursor where it is, and all sessions in their places. -/
theorem serve_still {r : Request} (hs : r ≠ .solve) (ha : ∀ v, r ≠ .setCurrent v) :
    ((serve r).run w).state.current = w.current ∧
      ((serve r).run w).state.sessions.length = w.sessions.length := by
  cases r with
  | performStep =>
    rw [run_serve_performStep]
    exact ⟨on_current _ _, on_length _ _⟩
  | solve => exact absurd rfl hs
  | setCurrent v => exact absurd rfl (ha v)
  | reinit start parameter =>
    have hreinit : ∀ xs : Option (List Float), (reinit xs parameter).Keeps
        fun x : Warm Float n => x.current = w.current ∧ x.sessions.length = w.sessions.length := by
      intro xs x hx
      exact ⟨hx.1, (Act.each_length _).trans hx.2⟩
    exact (keeps_reinitAt hreinit start).bind (fun _ => Act.keeps_pure none) w ⟨rfl, rfl⟩
  | one i q => exact ⟨on_current _ _, on_length _ _⟩

theorem solve_length : (solve.run w).state.sessions.length = w.sessions.length := by
  have hon : ∀ i, (on i Session.solve).Keeps
      fun x : Warm Float n => x.sessions.length = w.sessions.length :=
    fun i x hx => (on_length i _).trans hx
  exact keeps_solve hon (fun _ _ hx => hx) w rfl

theorem Solved.current_le {r : Except (Fault Float) (Solution Float n)} {w' : Warm Float n}
    (h : w.Solved r w') (hlen : w'.sessions.length = w.sessions.length) :
    w'.current ≤ w.sessions.length := by
  cases h with
  | won _ _ hs => exact hlen ▸ Nat.le_of_lt (List.getElem?_eq_some_iff.mp hs).1
  | lost _ hend => exact Nat.le_of_eq hend
  | raised _ hs => exact Nat.le_of_lt (List.getElem?_eq_some_iff.mp hs).1

/-- Whatever is asked for, the cursor stays in its place among the sessions. -/
theorem keeps_placed (hc : 0 < count) (r : Request) :
    (serve r : Act Float (Warm Float n) _).Keeps (Placed count) := by
  intro w hw
  obtain ⟨rfl, hk⟩ := hw
  by_cases hstill : r ≠ .solve ∧ ∀ v, r ≠ .setCurrent v
  · obtain ⟨hcurrent, hlength⟩ := serve_still (w := w) hstill.1 hstill.2
    exact ⟨hlength, hcurrent ▸ hk⟩
  · cases r with
    | solve =>
      rw [run_serve_solve]
      exact ⟨solve_length, (solved hk (List.length_pos_iff.mp hc)).current_le solve_length⟩
    | setCurrent v =>
      rw [run_serve_setCurrent]
      obtain ⟨k, -, hle, hrun⟩ | ⟨e, hrun, -⟩ := setCurrent_cases w v
      · rw [hrun]
        exact ⟨rfl, hle⟩
      · rw [hrun]
        exact ⟨rfl, hk⟩
    | performStep => exact absurd ⟨nofun, nofun⟩ hstill
    | reinit start parameter => exact absurd ⟨nofun, nofun⟩ hstill
    | one i q => exact absurd ⟨nofun, nofun⟩ hstill

theorem placed_of_reached {owner : Solver} {sessions : List (Session Float n)} {w₀ : Warm Float n}
    (h₀ : ofSessions owner sessions = .ok w₀) (h : Act.Reached serve (fun _ => True) w₀ w) :
    w.Placed sessions.length := by
  obtain ⟨hne, rfl⟩ := ofSessions_eq_ok.mp h₀
  exact h.keeps ⟨rfl, Nat.zero_le _⟩ fun r _ => keeps_placed (List.length_pos_iff.mpr hne) r

/-- The cursor is moved by a solve, or put somewhere. -/
theorem moved_by {r : Request} (h : ((serve r).run w).state.current ≠ w.current) :
    r = .solve ∨ ∃ v, r = .setCurrent v ∧ Act.Granted serve w r := by
  by_cases hs : r = .solve
  · exact .inl hs
  · by_cases ha : ∃ v, r = .setCurrent v
    · obtain ⟨v, rfl⟩ := ha
      refine .inr ⟨v, rfl, ?_⟩
      rw [Act.Granted, run_serve_setCurrent]
      rw [run_serve_setCurrent] at h
      obtain ⟨k, -, -, hrun⟩ | ⟨e, hrun, -⟩ := setCurrent_cases w v
      · rw [hrun]
        rfl
      · rw [hrun] at h
        exact absurd rfl h
    · exact absurd (serve_still hs fun v hv => ha ⟨v, hv⟩).1 h

/-- The fault of a cursor out of range is raised by a step behind the last session, and wherever a
session raises it itself; a solve raises only what the session it stopped at raises. -/
theorem state_faults (hk : w.current ≤ w.sessions.length) (hne : w.sessions ≠ []) :
    ((∃ e, (performStep.run w).result = .error e ∧ e.kind = .state) ↔
      w.current = w.sessions.length ∨
        ∃ s e, w.sessions[w.current]? = some s ∧ s.outcome = .error e ∧ e.kind = .state) ∧
    ∀ e, (solve.run w).result = .error e →
      ∃ s, w.sessions[(solve.run w).state.current]? = some s ∧ s.outcome = .error e := by
  refine ⟨⟨fun h => ?_, fun h => ?_⟩, fun e he => ?_⟩
  · obtain ⟨e, he, hkind⟩ := h
    obtain ⟨hend, -⟩ | ⟨s, hcursor, hraised⟩ := (performStep_error hk e).mp he
    · exact .inl hend
    · exact .inr ⟨s, e, hcursor, hraised, hkind⟩
  · obtain hend | ⟨s, e, hcursor, hraised, hkind⟩ := h
    · exact ⟨_, (performStep_error hk _).mpr (.inl ⟨hend, rfl⟩), rfl⟩
    · exact ⟨e, (performStep_error hk e).mpr (.inr ⟨s, hcursor, hraised⟩), hkind⟩
  · have hsolved := solved hk hne
    rw [he] at hsolved
    cases hsolved with
    | raised _ hat hraised => exact ⟨_, hat, hraised⟩

end Histories

end Warm

/-- The cursor over whole histories. Whatever is asked of kept sessions, and whatever they raise, it
is on one of them or behind the last; only a solve and an assignment that is accepted move it, and a
solve never back. A solve that succeeds leaves it on the session that did, one that fails behind the
last, and one that raises on the session that raised; those that it passed are over and have failed.
A step behind the last session is refused; any other fault, of a step or of a solve, is one that a
session raised. -/
theorem cursor_over_histories {n : Nat} {owner : Solver} {sessions : List (Session Float n)}
    {w₀ w : Warm Float n} (h₀ : Warm.ofSessions owner sessions = .ok w₀)
    (h : Act.Reached Warm.serve (fun _ => True) w₀ w) :
    w.Placed sessions.length ∧
      (∀ r, ((Warm.serve r).run w).state.current ≠ w.current →
        r = .solve ∨ ∃ v, r = .setCurrent v ∧ Act.Granted Warm.serve w r) ∧
      (∀ v, (∃ k : Nat, v.truncated = .ok (k : Int) ∧ k ≤ w.sessions.length ∧
          (Warm.setCurrent v).run w = ⟨.ok (), { w with current := k }, []⟩) ∨
        ∃ e, (Warm.setCurrent v).run w = ⟨.error e, w, []⟩ ∧
          ∀ k, v.truncated = .ok k → ¬ (0 ≤ k ∧ k ≤ w.sessions.length)) ∧
      w.current ≤ (Warm.solve.run w).state.current ∧
      w.Solved (Warm.solve.run w).result (Warm.solve.run w).state ∧
      (∀ e, (Warm.performStep.run w).result = .error e ↔
        w.current = w.sessions.length ∧ e = .cannotStep w.current w.sessions.length ∨
          ∃ s, w.sessions[w.current]? = some s ∧ s.outcome = .error e) ∧
      ((∃ e, (Warm.performStep.run w).result = .error e ∧ e.kind = .state) ↔
        w.current = w.sessions.length ∨
          ∃ s e, w.sessions[w.current]? = some s ∧ s.outcome = .error e ∧ e.kind = .state) ∧
      ∀ e, (Warm.solve.run w).result = .error e →
        ∃ s, w.sessions[(Warm.solve.run w).state.current]? = some s ∧ s.outcome = .error e := by
  have hplaced := Warm.placed_of_reached h₀ h
  have hk := hplaced.current_le
  have hne := hplaced.ne_nil (List.length_pos_iff.mpr (Warm.ofSessions_eq_ok.mp h₀).1)
  have hsolved := Warm.solved hk hne
  exact ⟨hplaced, fun r hr => Warm.moved_by hr, w.setCurrent_cases, hsolved.le_current hk,
    hsolved, Warm.performStep_error hk, Warm.state_faults hk hne⟩

def raisingSession (kind : Kind) : Session Float 1 :=
  ⟨.newton none (Settings.initial : Configuration).linearization, ⟨1e-10, 10, .inf⟩,
    ⟨⟨.outOfPlace (fun _ _ => .error (.raised kind "out of domain")) none, .replicate 1 1.0,
      .absent⟩, .replicate 1 1.0, .replicate 1 1.0, .default, false, {}, ()⟩⟩

/-- A session that stalls before one that raises, and one that ends well behind it. -/
def torn : Warm Float 1 :=
  ⟨⟨"torn", "torn"⟩, [Warm.stagedSession "first" .stalled 0.5, raisingSession .runtime,
    Warm.stagedSession "last" .success 0.25], 0⟩

/-- The same after a solve that raised, with the cursor put on the last session. -/
def tornOn : Warm Float 1 :=
  ((Warm.serve (.setCurrent (.int 2))).run ((Warm.serve .solve).run torn).state).state

theorem cursor_over_histories_torn :
    Warm.ofSessions torn.owner torn.sessions = .ok torn ∧
    Act.Reached Warm.serve (fun _ => True) torn tornOn ∧
    (∃ e s, (Warm.solve.run torn).result = .error e ∧
      torn.sessions[(Warm.solve.run torn).state.current]? = some s ∧ s.outcome = .error e) ∧
    ∃ sol s, (Warm.solve.run tornOn).result = .ok sol ∧ sol.code = .success ∧
      (Warm.solve.run tornOn).state.sessions[(Warm.solve.run tornOn).state.current]? = some s ∧
      s.iteration.code = .success := by
  have h₀ : Warm.ofSessions torn.owner torn.sessions = .ok torn := rfl
  have hreached : Act.Reached Warm.serve (fun _ => True) torn tornOn :=
    .after (.after .start Warm.Request.solve trivial) (Warm.Request.setCurrent (.int 2)) trivial
  have hraises : (Warm.solve.run torn).result.isOk = false := by decide +kernel
  have hwins : (Warm.solve.run tornOn).result.toOption.map Solution.code = some .success := by
    decide +kernel
  obtain ⟨-, -, -, -, hsolved, -⟩ := cursor_over_histories h₀ .start
  obtain ⟨-, -, -, -, hsolved', -⟩ := cursor_over_histories h₀ hreached
  refine ⟨h₀, hreached, ?_, ?_⟩
  · generalize (Warm.solve.run torn).result = r at hsolved hraises
    cases hsolved with
    | won => cases hraises
    | lost => cases hraises
    | raised _ hs he => exact ⟨_, _, rfl, hs, he⟩
  · generalize (Warm.solve.run tornOn).result = r at hsolved' hwins
    cases hsolved' with
    | won hcode _ hs _ hsuccess => exact ⟨_, _, rfl, hcode, hs, hsuccess⟩
    | lost hcode => exact absurd (Option.some.inj hwins) hcode
    | raised => cases hwins

/-- A session that stops under the code of one that goes on, before one whose function raises the
fault of a cursor out of range. -/
def misled : Warm Float 1 :=
  ⟨⟨"misled", "misled"⟩, [Warm.stagedSession "first" .default 0.5, raisingSession .state], 0⟩

/-- A solve passes a session that has no failing code, and raises the fault of a cursor out of range
from a session; so does a step there, on the last of two. -/
theorem state_fault_within_range :
    Warm.ofSessions misled.owner misled.sessions = .ok misled ∧
      raisedKind? (Warm.solve.run misled).result = some .state ∧
      (Warm.solve.run misled).state.current = 1 ∧
      (Warm.solve.run misled).state.sessions[0]?.map (fun s => s.iteration.code) = some .default ∧
      raisedKind? (Warm.performStep.run (Warm.solve.run misled).state).result = some .state := by
  refine ⟨rfl, ?_, ?_, ?_, ?_⟩ <;> decide +kernel

end Rootfinder
