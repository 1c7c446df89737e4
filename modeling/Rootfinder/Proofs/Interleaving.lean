import Rootfinder.Proofs.Agreement
import Rootfinder.Proofs.History
import Rootfinder.Proofs.RunDecomposition

namespace Rootfinder

variable {α β : Type} [Scalar α] {n : Nat}

namespace Session

variable {s t u : Session α n}

/-- Solved from here, a session ends as it would have from there. -/
structure Bound (s t : Session α n) : Prop where
  outcome : t.outcome = s.outcome
  driven : t.driven = s.driven

theorem Bound.refl (s : Session α n) : s.Bound s := ⟨rfl, rfl⟩

theorem Bound.trans (h : s.Bound t) (h' : t.Bound u) : s.Bound u :=
  ⟨h'.outcome.trans h.outcome, h'.driven.trans h.driven⟩

/-- A session that has ended is left as it is by a solve, which tells what it shows. -/
theorem solve_ended (h : s.iteration.terminated = true) :
    s.outcome = .ok s.snapshot ∧ s.driven = s := by
  have hs := Iteration.solve_of_terminated (m := s.method) h
  exact ⟨congrArg Outcome.result hs,
    congrArg (fun o => { s with iteration := Outcome.state o }) hs⟩

theorem step_ended (h : s.iteration.terminated = true) : (step.run s).state = s := by
  have ht := Iteration.tested_of_terminated (m := s.method) h
  have hs := (Iteration.returns_step_ended (m := s.method) (by rw [ht]; exact h)).2
  rw [ht] at hs
  exact congrArg (fun it => { s with iteration := it }) hs

theorem bound_step (h : (step.run s).result.isOk = true) : s.Bound (step.run s).state := by
  cases ht : s.iteration.terminated with
  | true =>
    rw [step_ended ht]
    exact .refl s
  | false =>
    have hsolve := Iteration.solve_of_running s.method_advance_at ht
    rcases hs : (Iteration.step s.method).run s.iteration with ⟨e | _, it, trace⟩
    · have he : (step.run s).result = .error e := congrArg Outcome.result hs
      rw [he] at h
      cases h
    · rw [Act.run_bind_ok hs] at hsolve
      have hstate : (step.run s).state = { s with iteration := it } :=
        congrArg (fun o => { s with iteration := Outcome.state o }) hs
      rw [hstate]
      exact ⟨(congrArg Outcome.result hsolve).symm,
        (congrArg (fun o => { s with iteration := Outcome.state o }) hsolve).symm⟩

theorem bound_solve {r : Run α n} (h : s.outcome = .ok r) : s.Bound s.driven := by
  obtain ⟨ho, hd⟩ := solve_ended (driven_terminated h)
  exact ⟨by rw [ho, h, ← outcome_snapshot h], hd⟩

end Session

namespace Warm

variable {w w₀ : Warm α n} {runs : Nat → Run α n}

structure Fails (w : Warm α n) (runs : Nat → Run α n) (stop : Nat) : Prop where
  arrives : w.Arrives runs stop
  failed : ∀ j, w.current ≤ j → j < stop → (runs j).success = false

/-- How a solve goes: up to the first success, through all sessions, or up to the first that
raises. -/
inductive Fate (w : Warm α n) (runs : Nat → Run α n) : Prop where
  | won (i : Nat) (hi : w.current ≤ i) (hlt : i < w.sessions.length) (hf : w.Fails runs i)
    (ha : w.Arrives runs (i + 1)) (hw : (runs i).success = true)
  | lost (hf : w.Fails runs w.sessions.length)
  | raised (i : Nat) (hi : w.current ≤ i) (hf : w.Fails runs i) (s : Session α n)
    (hs : w.sessions[i]? = some s) (e : Fault α) (he : s.outcome = .error e)

def arrival (w : Warm α n) (d : Session α n) (j : Nat) : Run α n :=
  ((w.sessions[j]?).getD d).driven.snapshot

theorem Fails.succ {i : Nat} {s : Session α n} (h : w.Fails runs i)
    (hs : w.sessions[i]? = some s) (hr : s.outcome = .ok (runs i)) : w.Arrives runs (i + 1) := by
  intro j t hj hl ht
  obtain hlt | rfl := Nat.lt_succ_iff_lt_or_eq.mp hl
  · exact h.arrives j t hj hlt ht
  · obtain rfl := Option.some.inj (hs.symm.trans ht)
    exact hr

/-- There are no other ways for a solve to go. -/
theorem fate (d : Session α n) (hk : w.current ≤ w.sessions.length) : w.Fate (w.arrival d) := by
  have hupto : ∀ m, w.current + m ≤ w.sessions.length →
      w.Fate (w.arrival d) ∨ w.Fails (w.arrival d) (w.current + m) := by
    intro m
    induction m with
    | zero => exact fun _ => .inr ⟨fun j s hj hl => by omega, fun j hj hl => by omega⟩
    | succ m ih =>
      intro hm
      obtain h | hf := ih (by omega)
      · exact .inl h
      · have hs : w.sessions[w.current + m]? = some w.sessions[w.current + m] :=
          List.getElem?_eq_getElem hm
        cases hr : w.sessions[w.current + m].outcome with
        | error e => exact .inl (.raised _ (Nat.le_add_right _ _) hf _ hs e hr)
        | ok r =>
          have harr : w.arrival d (w.current + m) = r := by
            rw [arrival, hs, Option.getD_some, Session.outcome_snapshot hr]
          have ha := hf.succ hs (hr.trans (congrArg Except.ok harr.symm))
          cases hw : (w.arrival d (w.current + m)).success with
          | true => exact .inl (.won _ (Nat.le_add_right _ _) hm hf ha hw)
          | false =>
            refine .inr ⟨ha, fun j hj hl => ?_⟩
            obtain hlt | rfl := Nat.lt_succ_iff_lt_or_eq.mp hl
            · exact hf.failed j hj hlt
            · exact hw
  obtain h | hf := hupto (w.sessions.length - w.current) (by omega)
  · exact h
  · rw [Nat.add_sub_cancel' hk] at hf
    exact .lost hf

/-- A solve raises what the first session to raise does, and stops there. -/
theorem solve_raises {i : Nat} (hi : w.current ≤ i) (hf : w.Fails runs i) {s : Session α n}
    (hs : w.sessions[i]? = some s) {e : Fault α} (he : s.outcome = .error e) :
    (solve.run w).result = .error e ∧ (solve.run w).state = w.advanced (i + 1) i := by
  have hlt := (List.getElem?_eq_some_iff.mp hs).1
  have hi' : w.current + (i - w.current) = i := by omega
  have hk : w.sessions.length - w.current =
      w.sessions.length - (i + 1) + 1 + (i - w.current) := by omega
  have hs' : (w.advanced i i).sessions[i]? = some s := by
    rw [advanced_getElem?, hs]
    simp
  have hw : solve.wp (fun _ _ => False)
      (fun e' w' => e' = e ∧ w' = w.advanced (i + 1) i) w := by
    rw [wp_solve, hk, wp_drive_failing (by omega) (by rw [hi']; exact hf.arrives)
      (by rw [hi']; exact hf.failed), hi', wp_drive_error hs' he, advanced_current,
      advanced_advanced w hi (Nat.le_succ i)]
    exact ⟨rfl, rfl⟩
  obtain ⟨e', hr, rfl, hstate⟩ := hw.raises
  exact ⟨hr, hstate⟩

/-- Kept sessions that were driven from those of `w₀`: each is on its way, and those before the
cursor have failed. -/
structure Along (w₀ w : Warm α n) : Prop where
  owner : w.owner = w₀.owner
  length : w.sessions.length = w₀.sessions.length
  bound : ∀ (j : Nat) (s t : Session α n), w₀.sessions[j]? = some s → w.sessions[j]? = some t →
    s.Bound t
  cursor : w.current ≤ w.sessions.length
  passed : ∀ (j : Nat) (t : Session α n), j < w.current → w.sessions[j]? = some t →
    t.iteration.terminated = true ∧ t.snapshot.success = false

theorem Along.refl (h : w.current = 0) : w.Along w := by
  refine ⟨rfl, rfl, fun j s t hs ht => ?_, by omega, fun j t hj => by omega⟩
  obtain rfl := Option.some.inj (hs.symm.trans ht)
  exact .refl s

theorem Along.at (h : w₀.Along w) {j : Nat} {t : Session α n} (ht : w.sessions[j]? = some t) :
    ∃ s, w₀.sessions[j]? = some s ∧ s.Bound t := by
  have hlt := (List.getElem?_eq_some_iff.mp ht).1
  rw [h.length] at hlt
  exact ⟨_, List.getElem?_eq_getElem hlt, h.bound j _ t (List.getElem?_eq_getElem hlt) ht⟩

section Driven

theorem on_some {i : Nat} {s : Session α n} (hs : w.sessions[i]? = some s)
    (x : Act α (Session α n) β) : (on i x).run w = ⟨(x.run s).result,
      { w with sessions := w.sessions.set i (x.run s).state }, (x.run s).trace⟩ := by
  unfold on Act.run
  simp only [hs]

theorem on_none {i : Nat} (hs : w.sessions[i]? = none) (x : Act α (Session α n) β) :
    (on i x).run w = ⟨.error (.cannotStep i w.sessions.length), w, []⟩ := by
  unfold on Act.run
  simp only [hs]

theorem on_current (i : Nat) (x : Act α (Session α n) β) :
    ((on i x).run w).state.current = w.current := by
  cases hi : w.sessions[i]? with
  | none => rw [on_none hi]
  | some s => rw [on_some hi]

variable {x : Act α (Session α n) β}
  (hbound : ∀ s, (x.run s).result.isOk = true → s.Bound (x.run s).state)
  (hended : ∀ s : Session α n, s.iteration.terminated = true → (x.run s).state = s)

include hbound hended

/-- A session that is driven alone is on its way further. -/
theorem Along.on (h : w₀.Along w) {i : Nat} (hok : ((on i x).run w).result.isOk = true) :
    w₀.Along ((Warm.on i x).run w).state := by
  cases hi : w.sessions[i]? with
  | none =>
    rw [on_none hi] at hok
    cases hok
  | some s =>
    have hlt := (List.getElem?_eq_some_iff.mp hi).1
    rw [on_some hi] at hok ⊢
    refine ⟨h.owner, by simpa using h.length, fun j u t hu ht => ?_, by simpa using h.cursor,
      fun j t hj ht => ?_⟩
    · by_cases hij : i = j
      · subst hij
        obtain rfl := Option.some.inj ((List.getElem?_set_self hlt).symm.trans ht)
        exact (h.bound i u s hu hi).trans (hbound s hok)
      · exact h.bound j u t hu ((List.getElem?_set_ne hij).symm.trans ht)
    · by_cases hij : i = j
      · subst hij
        obtain rfl := Option.some.inj ((List.getElem?_set_self hlt).symm.trans ht)
        rw [hended s (h.passed i s hj hi).1]
        exact h.passed i s hj hi
      · exact h.passed j t hj ((List.getElem?_set_ne hij).symm.trans ht)

end Driven

/-- What stops a solve of the sessions of `w₀` is not before the cursor. -/
theorem Along.cursor_le (h : w₀.Along w) {i : Nat} {s : Session α n}
    (hs : w₀.sessions[i]? = some s) (hn : ∀ r, s.outcome = .ok r → r.success = true) :
    w.current ≤ i := by
  refine Nat.le_of_not_lt fun hi => ?_
  obtain ⟨t, ht⟩ : ∃ t, w.sessions[i]? = some t :=
    ⟨_, List.getElem?_eq_getElem (Nat.lt_of_lt_of_le hi h.cursor)⟩
  obtain ⟨hended, hfailed⟩ := h.passed i t hi ht
  have hr := (h.bound i s t hs ht).outcome.symm.trans (Session.solve_ended hended).1
  exact absurd ((hn _ hr).symm.trans hfailed) Bool.noConfusion

theorem Along.arrives (h : w₀.Along w) (h₀ : w₀.current = 0) {stop : Nat}
    (ha : w₀.Arrives runs stop) : w.Arrives runs stop := by
  intro j t hj hl ht
  obtain ⟨s, hs, hb⟩ := h.at ht
  exact hb.outcome.trans (ha j s (by omega) hl hs)

theorem Along.fails (h : w₀.Along w) (h₀ : w₀.current = 0) {stop : Nat}
    (hf : w₀.Fails runs stop) : w.Fails runs stop :=
  ⟨h.arrives h₀ hf.arrives, fun j _ hl => hf.failed j (by omega) hl⟩

end Warm

/-- A solution apart from its attempts. -/
def Solution.bare (sol : Solution α n) : Solution α n := { sol with attempts := [] }

namespace Warm

variable {w w₀ : Warm α n} {runs : Nat → Run α n}

/-- The first session has the problem and the norm that it had. -/
theorem Along.head (h : w₀.Along w) : w.problem? = w₀.problem? ∧ w.norm = w₀.norm := by
  unfold Warm.problem? Warm.norm
  simp only [List.head?_eq_getElem?]
  cases ht : w.sessions[0]? with
  | none =>
    rw [List.getElem?_eq_none_iff, h.length, ← List.getElem?_eq_none_iff] at ht
    rw [ht]
    exact ⟨rfl, rfl⟩
  | some t =>
    obtain ⟨s, hs, hb⟩ := h.at ht
    have hproblem := congrArg Session.problem hb.driven
    rw [Session.driven_problem, Session.driven_problem] at hproblem
    have hoptions := congrArg Session.options hb.driven
    change t.options = s.options at hoptions
    rw [hs]
    simp only [Option.map_some, Option.getD_some, hproblem, hoptions, and_self]

/-- At the end of a solve without success, the sessions are the same. -/
theorem Along.advanced_sessions (h : w₀.Along w) (h₀ : w₀.current = 0) :
    (w.advanced w.sessions.length w.sessions.length).sessions =
      (w₀.advanced w₀.sessions.length w₀.sessions.length).sessions := by
  apply List.ext_getElem?
  intro j
  rw [advanced_getElem?, advanced_getElem?, h₀]
  cases ht : w.sessions[j]? with
  | none =>
    rw [List.getElem?_eq_none_iff, h.length, ← List.getElem?_eq_none_iff] at ht
    rw [ht]
    rfl
  | some t =>
    obtain ⟨s, hs, hb⟩ := h.at ht
    have hlt := (List.getElem?_eq_some_iff.mp ht).1
    have hlt' : 0 ≤ j ∧ j < w₀.sessions.length := ⟨Nat.zero_le j, h.length ▸ hlt⟩
    rw [hs, Option.map_some, Option.map_some, if_pos hlt', ← hb.driven]
    split
    · rfl
    · rename_i hj
      rw [(Session.solve_ended (h.passed j t (by omega) ht).1).2]

/-- A solve of sessions that were driven ends as one of those of `w₀` does, apart from the
attempts, and with the same attempts unless the cursor was moved. -/
theorem Along.solve_result (h : w₀.Along w) (h₀ : w₀.current = 0) (hne : w₀.sessions ≠ []) :
    (solve.run w).result.map Solution.bare = (solve.run w₀).result.map Solution.bare ∧
    (w.current = 0 → (solve.run w).result = (solve.run w₀).result) := by
  obtain ⟨d, -⟩ := List.exists_mem_of_ne_nil _ hne
  obtain ⟨hproblem, hnorm⟩ := h.head
  have hrecords : ∀ stop, w.current = 0 → w.records (w₀.arrival d) w.norm stop =
      w₀.records (w₀.arrival d) w₀.norm stop := by
    intro stop hk
    rw [records, records, hk, h₀, hnorm]
  cases Warm.fate d (h₀ ▸ Nat.zero_le w₀.sessions.length) with
  | won i hi hlt hf ha hw =>
    have hs := List.getElem?_eq_getElem hlt
    have hle : w.current ≤ i := by
      refine h.cursor_le hs fun r hr => ?_
      obtain rfl := Except.ok.inj ((ha i _ hi (Nat.lt_succ_self i) hs).symm.trans hr)
      exact hw
    have hr₀ := returns_solve_won hi hlt ha hw hf.failed
    have hr := returns_solve_won hle (h.length ▸ hlt) (h.arrives h₀ ha) hw (h.fails h₀ hf).failed
    rw [hr.1, hr₀.1, h.owner, hproblem]
    exact ⟨rfl, fun hk => by rw [hrecords _ hk]⟩
  | lost hf =>
    have hne' : (w₀.advanced w₀.sessions.length w₀.sessions.length).sessions ≠ [] := by
      rw [← List.length_pos_iff, advanced_length]
      exact List.length_pos_iff.mpr hne
    obtain ⟨b, s, hb⟩ := Selection.selectBest_ok
      (fun s : Session α n => s.residualNorm (some w₀.norm)) hne'
    have hb' : Selection.selectBest (fun s => s.residualNorm (some w.norm))
        (w.advanced w.sessions.length w.sessions.length).sessions = .ok (b, s) := by
      rw [h.advanced_sessions h₀, hnorm]
      exact hb
    have hf' : w.Fails (w₀.arrival d) w.sessions.length := h.length ▸ h.fails h₀ hf
    have hr₀ := returns_solve_lost (h₀ ▸ Nat.zero_le _) hf.arrives hf.failed hb
    have hr := returns_solve_lost h.cursor hf'.arrives hf'.failed hb'
    rw [hr.1, hr₀.1, h.owner, hproblem, h.length]
    exact ⟨rfl, fun hk => by rw [hrecords _ hk]⟩
  | raised i hi hf s hs e he =>
    have hlt := (List.getElem?_eq_some_iff.mp hs).1
    rw [← h.length] at hlt
    have ht := List.getElem?_eq_getElem hlt
    have hle : w.current ≤ i := by
      refine h.cursor_le hs fun r hr => ?_
      rw [he] at hr
      cases hr
    have hr₀ := solve_raises hi hf hs he
    have hr := solve_raises hle (h.fails h₀ hf) ht ((h.bound i s _ hs ht).outcome.trans he)
    rw [hr.1, hr₀.1]
    exact ⟨rfl, fun _ => rfl⟩

/-- Driven up to a place by a solve, sessions are on their way further. -/
theorem Along.advanced (h : w₀.Along w) {stop cursor : Nat} (ha : w.Arrives runs stop)
    (hf : ∀ j, w.current ≤ j → j < cursor → (runs j).success = false) (hstop : cursor ≤ stop)
    (hlen : cursor ≤ w.sessions.length) : w₀.Along (w.advanced stop cursor) := by
  refine ⟨h.owner, by simpa using h.length, fun j s t hs ht => ?_, by simpa using hlen,
    fun j t hj ht => ?_⟩
  · rw [advanced_getElem?] at ht
    obtain ⟨u, hu, rfl⟩ := Option.map_eq_some_iff.mp ht
    split
    · rename_i hj
      exact (h.bound j s u hs hu).trans (Session.bound_solve (ha j u hj.1 hj.2 hu))
    · exact h.bound j s u hs hu
  · rw [advanced_getElem?] at ht
    obtain ⟨u, hu, rfl⟩ := Option.map_eq_some_iff.mp ht
    rw [advanced_current] at hj
    by_cases hk : w.current ≤ j
    · have hr := ha j u hk (by omega) hu
      rw [if_pos ⟨hk, by omega⟩, ← Session.outcome_snapshot hr]
      exact ⟨Session.driven_terminated hr, hf j hk hj⟩
    · rw [if_neg (by omega)]
      exact h.passed j u (by omega) hu

theorem Arrives.again {stop cursor : Nat} (ha : w.Arrives runs stop) (hc : w.current ≤ cursor) :
    (w.advanced stop cursor).Arrives runs stop := by
  intro j t hj hl ht
  rw [advanced_current] at hj
  rw [advanced_getElem?] at ht
  obtain ⟨s, hs, rfl⟩ := Option.map_eq_some_iff.mp ht
  have hr := ha j s (hc.trans hj) hl hs
  rw [if_pos ⟨hc.trans hj, hl⟩, (Session.bound_solve hr).outcome, hr]

/-- Sessions that have arrived stay when they are driven again. -/
theorem advanced_again {stop cursor : Nat} (hc : w.current ≤ cursor) (ha : w.Arrives runs stop) :
    (w.advanced stop cursor).advanced stop cursor = w.advanced stop cursor := by
  refine ext_places rfl (fun j => ?_) rfl
  rw [advanced_getElem?, advanced_getElem?, advanced_current, Option.map_map]
  cases hs : w.sessions[j]? with
  | none => rfl
  | some s =>
    rw [Option.map_some, Option.map_some, Function.comp_apply]
    split
    · rename_i hj
      have hj' : w.current ≤ j ∧ j < stop := ⟨hc.trans hj.1, hj.2⟩
      rw [if_pos hj', (Session.bound_solve (ha j s hj'.1 hj'.2 hs)).driven]
    · rfl

theorem advanced_norm (w : Warm α n) (stop cursor : Nat) :
    (w.advanced stop cursor).norm = w.norm := by
  simp only [norm, List.head?_eq_getElem?, advanced_getElem?, Option.map_map]
  congr 2
  funext s
  simp only [Function.comp_apply]
  split <;> rfl

/-- What a solve leaves, and that another solve leaves it as it is. -/
theorem solve_cases (hk : w.current ≤ w.sessions.length) (hne : w.sessions ≠ [])
    {sol : Solution α n} {w' : Warm α n} (h : solve.Returns w sol w') :
    (∀ w₀ : Warm α n, w₀.Along w → w₀.Along w') ∧
    ∃ sol', solve.Returns w' sol' w' ∧ sol'.bare = sol.bare := by
  obtain ⟨d, -⟩ := List.exists_mem_of_ne_nil _ hne
  cases fate d hk with
  | won i hi hlt hf ha hw =>
    have hr := returns_solve_won hi hlt ha hw hf.failed
    obtain rfl := Except.ok.inj (h.1.symm.trans hr.1)
    obtain rfl := h.2.symm.trans hr.2
    refine ⟨fun w₀ h₀ => h₀.advanced ha hf.failed (Nat.le_succ i) (Nat.le_of_lt hlt), ?_⟩
    have hagain := returns_solve_won (w := w.advanced (i + 1) i) (Nat.le_refl i)
      (by simpa using hlt) (ha.again hi) hw
      (fun j hj hl => absurd hl (Nat.not_lt.mpr hj))
    rw [advanced_again hi ha] at hagain
    refine ⟨_, hagain, ?_⟩
    rw [advanced_problem?]
    rfl
  | lost hf =>
    have hne' : (w.advanced w.sessions.length w.sessions.length).sessions ≠ [] := by
      rw [← List.length_pos_iff, advanced_length]
      exact List.length_pos_iff.mpr hne
    obtain ⟨b, s, hb⟩ := Selection.selectBest_ok
      (fun s : Session α n => s.residualNorm (some w.norm)) hne'
    have hr := returns_solve_lost hk hf.arrives hf.failed hb
    obtain rfl := Except.ok.inj (h.1.symm.trans hr.1)
    obtain rfl := h.2.symm.trans hr.2
    refine ⟨fun w₀ h₀ => h₀.advanced hf.arrives hf.failed (Nat.le_refl _) (Nat.le_refl _), ?_⟩
    obtain ⟨v, hv⟩ : ∃ v, v = w.advanced w.sessions.length w.sessions.length := ⟨_, rfl⟩
    have hlen : v.sessions.length = w.sessions.length := by rw [hv, advanced_length]
    have hcursor : v.current = v.sessions.length := by rw [hlen, hv, advanced_current]
    have hself : v.advanced v.sessions.length v.sessions.length = v := by
      rw [hlen, hv, advanced_again hk hf.arrives]
    have harrives : v.Arrives (w.arrival d) v.sessions.length := by
      rw [hlen, hv]
      exact hf.arrives.again hk
    have hb' : Selection.selectBest (fun s => s.residualNorm (some v.norm))
        (v.advanced v.sessions.length v.sessions.length).sessions = .ok (b, s) := by
      rw [hself, hv, advanced_norm]
      exact hb
    have hagain := returns_solve_lost (Nat.le_of_eq hcursor) harrives
      (fun j hj hl => absurd hl (Nat.not_lt.mpr (hcursor ▸ hj))) hb'
    rw [hself] at hagain
    rw [← hv]
    refine ⟨_, hagain, ?_⟩
    rw [hv, advanced_problem?]
    rfl
  | raised i hi hf s hs e he =>
    have hr := (solve_raises hi hf hs he).1
    rw [h.1] at hr
    cases hr

end Warm

theorem except_isOk_map {ε β γ : Type} (f : β → γ) (x : Except ε β) :
    (x.map f).isOk = x.isOk := by
  cases x <;> rfl

namespace Session

/-- A step or a solve that is asked for leaves what it leaves by itself. -/
theorem bound_serve {q : Request} (hq : q = .step ∨ q = .solve) {s : Session Float n} :
    (((serve q).run s).result.isOk = true → s.Bound ((serve q).run s).state) ∧
    (s.iteration.terminated = true → ((serve q).run s).state = s) := by
  obtain rfl | rfl := hq
  · rw [run_serve_step, except_isOk_map]
    exact ⟨bound_step, step_ended⟩
  · rw [run_serve_solve, except_isOk_map]
    refine ⟨fun h => ?_, fun h => (solve_ended h).2⟩
    exact bound_solve (outcome_of_isOk h)

end Session

namespace Warm

variable {w w₀ : Warm Float n}

/-- Requests that drive sessions and return, and one step more than there are sessions, which is
refused. -/
def Drives (w : Warm Float n) : Request → Prop
  | .performStep => Act.Granted serve w .performStep ∨ w.current = w.sessions.length
  | .solve => Act.Granted serve w .solve
  | .one i .step => Act.Granted serve w (.one i .step)
  | .one i .solve => Act.Granted serve w (.one i .solve)
  | _ => False

/-- Whatever drives sessions leaves them on their way, and only a solve of them all moves the
cursor. -/
theorem Along.serve (h : w₀.Along w) (hne : w₀.sessions ≠ []) {r : Request} (hr : w.Drives r) :
    w₀.Along ((Warm.serve r).run w).state ∧
    (r ≠ .solve → ((Warm.serve r).run w).state.current = w.current) := by
  cases r with
  | performStep =>
    rw [run_serve_performStep]
    refine ⟨?_, fun _ => on_current _ _⟩
    obtain hok | hend := hr
    · unfold Act.Granted at hok
      rw [run_serve_performStep, except_isOk_map] at hok
      exact h.on (fun s hs => Session.bound_solve (Session.outcome_of_isOk hs))
        (fun s hs => (Session.solve_ended hs).2) hok
    · rw [on_none (by simp [hend])]
      exact h
  | solve =>
    have hok : (Warm.solve.run w).result.isOk = true := by
      have hok : ((Warm.serve .solve).run w).result.isOk = true := hr
      rwa [run_serve_solve, except_isOk_map] at hok
    rw [run_serve_solve]
    refine ⟨?_, fun hn => absurd rfl hn⟩
    have hne' : w.sessions ≠ [] := by
      rw [← List.length_pos_iff, h.length]
      exact List.length_pos_iff.mpr hne
    cases hsol : (Warm.solve.run w).result with
    | error e => rw [hsol] at hok; cases hok
    | ok sol => exact (solve_cases h.cursor hne' ⟨hsol, rfl⟩).1 w₀ h
  | setCurrent value => exact hr.elim
  | reinit start parameter => exact hr.elim
  | one i q =>
    refine ⟨?_, fun _ => on_current _ _⟩
    cases q with
    | step =>
      exact h.on (fun s => (Session.bound_serve (.inl rfl)).1)
        (fun s => (Session.bound_serve (.inl rfl)).2) hr
    | solve =>
      exact h.on (fun s => (Session.bound_serve (.inr rfl)).1)
        (fun s => (Session.bound_serve (.inr rfl)).2) hr
    | reinit start parameter => exact hr.elim

theorem Along.served (h : w₀.Along w) (hne : w₀.sessions ≠ []) {rs : List Request}
    {w' : Warm Float n} (hs : Act.Served Warm.serve Drives w rs w') :
    w₀.Along w' ∧ (Request.solve ∉ rs → w'.current = w.current) := by
  induction hs with
  | none => exact ⟨h, fun _ => rfl⟩
  | more hr _ ih =>
    obtain ⟨hnext, hcursor⟩ := h.serve hne hr
    obtain ⟨hlast, hkeep⟩ := ih hnext
    refine ⟨hlast, fun hn => ?_⟩
    rw [List.mem_cons, not_or] at hn
    rw [hkeep hn.2, hcursor (Ne.symm hn.1)]

end Warm

/-- A solve does not depend on how the kept sessions were driven before: one by one, by a step or
a solve of their own, or together. It ends as one of the sessions that nobody touched, but for the
attempts if there was a solve of them all before. Another solve then ends the same and changes
nothing. -/
theorem solve_ignores_what_was_driven [LinearRoutines Float] {call : Call}
    {problem : Problem Float n} {owner : Solver} {cs : List Candidate} {w₀ w : Warm Float n}
    {rs : List Warm.Request}
    (h₀ : ((Warm.ofCandidates owner cs call problem).run ()).result = .ok w₀)
    (h : Act.Served Warm.serve Warm.Drives w₀ rs w) :
    (Warm.solve.run w).result.map Solution.bare =
        (Warm.solve.run w₀).result.map Solution.bare ∧
      (Warm.Request.solve ∉ rs → (Warm.solve.run w).result = (Warm.solve.run w₀).result) ∧
      ∀ sol w', Warm.solve.Returns w sol w' →
        ∃ sol', Warm.solve.Returns w' sol' w' ∧ sol'.bare = sol.bare := by
  have hfresh := Warm.fresh_ofCandidates h₀
  obtain ⟨halong, hcursor⟩ :=
    (Warm.Along.refl hfresh.current).served hfresh.nonempty h
  obtain ⟨hbare, hall⟩ := halong.solve_result hfresh.current hfresh.nonempty
  have hne : w.sessions ≠ [] := by
    rw [← List.length_pos_iff, halong.length]
    exact List.length_pos_iff.mpr hfresh.nonempty
  exact ⟨hbare, fun hn => hall ((hcursor hn).trans hfresh.current),
    fun sol w' hr => (Warm.solve_cases halong.cursor hne hr).2⟩

theorem solve_ignores_what_was_driven_parabola : ∃ w₀ w : Warm Float 1,
    ((Warm.ofCandidates ⟨"pair", "pair"⟩ oddCouple .plain parabola).run ()).result = .ok w₀ ∧
    Act.Served Warm.serve Warm.Drives w₀ [.one 1 .step, .performStep, .solve, .one 0 .solve] w ∧
    (Warm.solve.run w).result.map Solution.bare =
      (Warm.solve.run w₀).result.map Solution.bare := by
  have hok : ((((Warm.ofCandidates ⟨"pair", "pair"⟩ oddCouple .plain parabola).run ()).result.map
      fun w₀ =>
        let w₁ := ((Warm.serve (.one 1 .step)).run w₀).state
        let w₂ := ((Warm.serve .performStep).run w₁).state
        let w₃ := ((Warm.serve .solve).run w₂).state
        (((Warm.serve (.one 1 .step)).run w₀).result.isOk,
          ((Warm.serve .performStep).run w₁).result.isOk,
          ((Warm.serve .solve).run w₂).result.isOk,
          ((Warm.serve (.one 0 .solve)).run w₃).result.isOk)).toOption :
      Option (Bool × Bool × Bool × Bool)) = some (true, true, true, true) := by decide +kernel
  cases h₀ : ((Warm.ofCandidates ⟨"pair", "pair"⟩ oddCouple .plain parabola).run ()).result with
  | error e => rw [h₀] at hok; cases hok
  | ok w₀ =>
    rw [h₀] at hok
    simp only [Except.map, Except.toOption, Option.some.injEq, Prod.mk.injEq] at hok
    obtain ⟨h₁, h₂, h₃, h₄⟩ := hok
    have hserved : Act.Served Warm.serve Warm.Drives w₀
        [.one 1 .step, .performStep, .solve, .one 0 .solve] _ :=
      .more h₁ (.more (.inl h₂) (.more h₃ (.more h₄ (.none _))))
    exact ⟨w₀, _, rfl, hserved, (solve_ignores_what_was_driven h₀ hserved).1⟩

end Rootfinder
