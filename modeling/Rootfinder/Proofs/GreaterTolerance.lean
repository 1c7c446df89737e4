import Rootfinder.Proofs.Agreement
import Rootfinder.Proofs.RunDecomposition
import Rootfinder.Proofs.Soundness

namespace Rootfinder

variable {α σ κ : Type} {n : Nat}

namespace Iteration

variable [Scalar α] {m m' : Method α n σ} {it x : Iteration α n σ} {k : Nat}

/-- A method under a tolerance that accepts no less; the budgets are not compared. -/
structure Eases (m m' : Method α n σ) : Prop where
  advance : m'.advance = m.advance
  norm : m'.options.norm = m.options.norm
  tolerance : ∀ r, r ≤ m.options.tolerance → r ≤ m'.options.tolerance

/-- A success that the test finds is one under the greater tolerance. -/
theorem Eases.tested_success (h : Eases m m') (hs : (it.tested m).code = .success) :
    (it.tested m').terminated = true ∧ (it.tested m').code = .success := by
  obtain he | ⟨ht, code, hv, he⟩ := tested_cases (m := m) it
  · rw [he] at hs
    have ht : it.terminated = true := by simp [terminated, hs]
    rw [tested_of_terminated ht]
    exact ⟨ht, hs⟩
  · rw [he] at hs
    obtain rfl : code = .success := hs
    have hv' : it.verdict m'.options = some .success := by
      simp only [verdict] at hv ⊢
      rw [h.norm]
      split at hv
      · cases hv
      · rename_i hfinite
        split at hv
        · rename_i hle
          rw [if_neg hfinite, if_pos (h.tolerance _ hle)]
        · split at hv <;> cases hv
    rw [tested_of_verdict ht hv']
    exact ⟨rfl, rfl⟩

/-- What passes the test is ended by the other one only if it is a success now or the budget is
used up. -/
theorem Eases.tested_passed (h : Eases m m') (ho : (it.tested m).terminated = false)
    (hb : it.stats.nsteps < m'.options.budget) (ht : (it.tested m').terminated = true) :
    (it.tested m').code = .success := by
  obtain ⟨hrun, hv, -⟩ := tested_eq_self ho
  obtain he | ⟨-, code, hv', he⟩ := tested_cases (m := m') it
  · rw [he, hrun] at ht
    cases ht
  · rw [he]
    simp only [verdict] at hv hv'
    rw [h.norm] at hv'
    split at hv
    · cases hv
    · rename_i hfinite
      rw [if_neg hfinite] at hv'
      split at hv'
      · exact (Option.some.inj hv').symm
      · split at hv'
        · omega
        · cases hv'

theorem Eases.lap (h : Eases m m') : Iteration.lap m' = Iteration.lap m := by
  rw [Iteration.lap, Iteration.lap, h.advance]

/-- Where laps lead to a success within both budgets, no more of them lead to one under the greater
tolerance, through the same states. -/
theorem Eases.laps (h : Eases m m') (hm : ∀ P k, m.advance.Keeps (At P k)) (hl : Laps m k it x)
    (hs : (x.tested m).code = .success) (hb : it.stats.nsteps + k ≤ m'.options.budget) :
    ∃ k' x', k' ≤ k ∧ Laps m' k' it x' ∧ (x'.tested m').terminated = true ∧
      (x'.tested m').code = .success ∧
      ∀ j, j ≤ k' → ∃ y, Laps m j it y ∧ Laps m' j it y := by
  have hzero : ∀ (it : Iteration α n σ) (j : Nat), j ≤ 0 → ∃ y, Laps m j it y ∧ Laps m' j it y := by
    intro it j hj
    obtain rfl := Nat.le_zero.mp hj
    exact ⟨it, .none it, .none it⟩
  induction hl with
  | none it =>
    obtain ⟨ht, hc⟩ := h.tested_success hs
    exact ⟨0, it, Nat.le_refl 0, .none it, ht, hc, hzero it⟩
  | @more k it it₁ x ho hl hrest ih =>
    cases ho' : (it.tested m').terminated with
    | true => exact ⟨0, it, Nat.zero_le _, .none it, ho',
        h.tested_passed ho (by omega) ho', hzero it⟩
    | false =>
      have hsteps := lap_steps hm hl
      have hl' : (Iteration.lap m').Returns it () it₁ := h.lap ▸ hl
      obtain ⟨k', x', hk, hx, ht, hc, hall⟩ := ih hs (by omega)
      refine ⟨k' + 1, x', Nat.succ_le_succ hk, .more ho' hl' hx, ht, hc, fun j hj => ?_⟩
      cases j with
      | zero => exact hzero it 0 (Nat.le_refl 0)
      | succ j =>
        obtain ⟨y, hy, hy'⟩ := hall j (Nat.le_of_succ_le_succ hj)
        exact ⟨y, .more ho hl hy, .more ho' hl' hy'⟩

end Iteration

namespace Algorithm

/-- Of the options, a method knows the norm alone. -/
theorem method_eased [Scalar α] (a : Algorithm α) {o o' : Options α} (hn : o'.norm = o.norm) :
    (a.method o' n).advance = (a.method o n).advance ∧
    (a.method o' n).restart = (a.method o n).restart := by
  obtain ⟨tolerance, budget, norm⟩ := o
  obtain ⟨tolerance', budget', norm'⟩ := o'
  obtain rfl : norm' = norm := hn
  cases a <;> exact ⟨rfl, rfl⟩

end Algorithm

namespace Session

variable {s : Session Float n} {o : Options Float}

def under (s : Session Float n) (o : Options Float) : Session Float n := { s with options := o }

theorem eases_under (hn : o.norm = s.options.norm) (ht : s.options.tolerance ≤ o.tolerance) :
    Iteration.Eases s.method (s.under o).method where
  advance := (s.algorithm.method_eased hn).1
  norm := by rw [method_options, method_options]; exact hn
  tolerance r hr := by
    rw [method_options] at hr ⊢
    exact Ranking.le_trans hr ht

/-- A session that arrives at a success does so under a greater tolerance, no later and by the same
way, if the budget lasts as long. -/
theorem outcome_under (hn : o.norm = s.options.norm) (ht : s.options.tolerance ≤ o.tolerance)
    {r : Run Float n} (hr : s.outcome = .ok r) (hs : r.code = .success)
    (hb : r.stats.nsteps ≤ o.budget) :
    ∃ r' k, (s.under o).outcome = .ok r' ∧ r'.code = .success ∧
      r'.stats.nsteps ≤ r.stats.nsteps ∧ r'.stats.nsteps = s.iteration.stats.nsteps + (k : Nat) ∧
      ((s.under o).after k).reading = (r'.u, r'.resid, r'.stats) ∧
      ∀ j, j ≤ k → ((s.under o).after j).reading = (s.after j).reading := by
  obtain ⟨k, x, hl, -, -, rfl⟩ := laps_of_outcome hr
  have hsteps := hl.steps s.method_advance_at
  simp only [Iteration.toRun, Iteration.tested_stats] at hb ⊢
  have hb' : s.iteration.stats.nsteps + k ≤ (s.under o).method.options.budget := by
    rw [method_options, ← hsteps]
    exact hb
  obtain ⟨k', x', hk, hl', hx', hc', hall⟩ :=
    (eases_under hn ht).laps s.method_advance_at hl hs hb'
  obtain ⟨r', hr', hcode, hsteps', hreading⟩ := outcome_of_laps (s := s.under o) hl' hx'
  refine ⟨r', k', hr', hcode.trans hc', ?_, hsteps', hreading, fun j hj => ?_⟩
  · rw [hsteps, hsteps']
    exact Int.add_le_add_left (Int.ofNat_le.mpr hk) _
  · obtain ⟨y, hy, hy'⟩ := hall j hj
    rw [reading_after hy, reading_after (s := s.under o) hy']

/-- At the start, the options matter for what is kept of them alone. -/
theorem start_under {a : Algorithm Float} {o o' : Options Float} (hn : o'.norm = o.norm)
    {P : Problem Float n} (h : ((start a o P).run ()).result = .ok s) :
    ((start a o' P).run ()).result = .ok (s.under o') := by
  have hsame : Iteration.start (a.method o' n) P = Iteration.start (a.method o n) P := by
    unfold Iteration.start
    rw [(a.method_eased hn).2]
  unfold start at h ⊢
  rw [hsame]
  rw [Act.run_bind] at h ⊢
  rcases hx : (Iteration.start (a.method o n) P).run () with ⟨e | it, u, t⟩
  · rw [hx] at h
    cases h
  · rw [hx] at h
    obtain rfl := Except.ok.inj h
    rfl

end Session

/-- Two calls under the same norm, the second with a tolerance that accepts no less. -/
structure Call.Eased (call call' : Call) (o o' : Options Float) : Prop where
  options : call.options = .ok o
  options' : call'.options = .ok o'
  extra : call'.extra = call.extra
  further : call'.further = call.further
  norm : call'.norm = call.norm
  tolerance : o.tolerance ≤ o'.tolerance

section Candidates

variable {call call' : Call} {o o' : Options Float} {P : Problem Float n} {c : Candidate}
  {s : Session Float n} {r : Run Float n}

theorem Call.Eased.norm_eq (h : call.Eased call' o o') : o'.norm = o.norm := by
  rw [Call.options_norm h.options, Call.options_norm h.options', Call.normOrDefault,
    Call.normOrDefault, h.norm]

namespace Candidate

variable [LinearRoutines Float]

theorem Started.under (h : Started call P c s) (he : call.Eased call' o o') :
    Started call' P c (s.under o') := by
  have ho := Except.ok.inj (h.options.symm.trans he.options)
  have hs := h.returned
  rw [h.init_eq rfl rfl rfl, he.options] at hs
  refine ⟨?_, h.algorithm, he.options', h.problem⟩
  rw [h.init_eq he.extra he.further rfl, he.options']
  exact Session.start_under he.norm_eq hs

/-- A candidate that is solved was set to work. -/
theorem started_of_solve (h : ((c.solve call P).run ()).result = .ok r) :
    ∃ s, Started call P c s ∧ s.outcome = .ok r := by
  obtain ⟨s, hs, hr⟩ := Act.result_bind_within h
  exact ⟨s, started hs, hr⟩

theorem Started.outcome_under (h : Started call P c s) (he : call.Eased call' o o')
    (hr : s.outcome = .ok r) (hs : r.code = .success) (hb : r.stats.nsteps ≤ o'.budget) :
    ∃ r' k, (s.under o').outcome = .ok r' ∧ r'.code = .success ∧
      r'.stats.nsteps ≤ r.stats.nsteps ∧ r'.stats.nsteps = (k : Nat) ∧
      ((s.under o').after k).reading = (r'.u, r'.resid, r'.stats) ∧
      ∀ j, j ≤ k → ((s.under o').after j).reading = (s.after j).reading := by
  have ho := Except.ok.inj (h.options.symm.trans he.options)
  have hn : o'.norm = s.options.norm := by rw [ho]; exact he.norm_eq
  have ht : s.options.tolerance ≤ o'.tolerance := by rw [ho]; exact he.tolerance
  simpa only [h.steps, Int.zero_add] using Session.outcome_under hn ht hr hs hb

/-- No run takes more steps than its budget. -/
theorem Started.steps_le (h : Started call P c s) (hr : s.outcome = .ok r) :
    r.stats.nsteps ≤ s.options.budget := by
  obtain ⟨k, x, hl, -, -, rfl⟩ := Session.laps_of_outcome hr
  rw [Iteration.toRun, Iteration.tested_stats]
  have hle := hl.steps_le s.method_advance_at
  rw [h.steps, Session.method_options] at hle
  exact hle (Int.natCast_nonneg _)

theorem solve_eased (he : call.Eased call' o o') (hb : o.budget ≤ o'.budget)
    (h : ((c.solve call P).run ()).result = .ok r) (hs : r.success = true) :
    ∃ r', ((c.solve call' P).run ()).result = .ok r' ∧ r'.success = true := by
  obtain ⟨s, hstarted, hr⟩ := started_of_solve h
  have hcode : r.code = .success := eq_of_beq hs
  have hsteps : r.stats.nsteps ≤ o'.budget := by
    have hle := hstarted.steps_le hr
    rw [Except.ok.inj (hstarted.options.symm.trans he.options)] at hle
    omega
  obtain ⟨r', -, hr', hcode', -⟩ := hstarted.outcome_under he hr hcode hsteps
  refine ⟨r', (hstarted.under he).solve_result.trans hr', ?_⟩
  rw [Run.success, hcode']
  rfl

end Candidate

end Candidates

namespace Fallback.Contest

variable [Scalar α] {c c' : Contest α n κ} {total : Nat} {ks : List κ}

def Course.Fair : Course α n → Prop
  | .won _ r => r.success = true
  | .lost failures => ∀ f ∈ failures, f.2.success = false

omit [Scalar α] in
theorem wp_course_fair {failures : List (Nat × Run α n)}
    (hf : ∀ f ∈ failures, f.2.success = false) (i : Nat) (records : List (AttemptRecord α)) :
    (c.course total failures ks i).wp (fun course _ => course.Fair) (fun _ _ => True) records := by
  induction ks generalizing failures i records with
  | nil => exact hf
  | cons k ks ih =>
    cases hr : ((c.solve k).run ()).result with
    | error e => exact (c.wp_course_error hr _ _ _).mpr trivial
    | ok r =>
      cases hs : r.success with
      | true => exact (c.wp_course_won hr hs _ _ _).mpr hs
      | false =>
        refine (c.wp_course_failed hr hs _ _ _).mpr (ih (fun f hm => ?_) _ _)
        rcases List.mem_append.mp hm with hm | hm
        · exact hf f hm
        · rw [List.mem_singleton.mp hm]
          exact hs

/-- The result of a fair course is a success only of the candidate that won it. -/
theorem wp_conclude_fair {course : Course α n} (h : course.Fair)
    (records : List (AttemptRecord α)) :
    (c.conclude course).wp (fun sol _ => ∀ i, sol.success = true ∧ sol.candidate = some i ↔
      ∃ r, course = .won i r) (fun _ _ => True) records := by
  cases course with
  | won i r =>
    intro j
    constructor
    · rintro ⟨-, hi⟩
      obtain rfl := Option.some.inj hi
      exact ⟨r, rfl⟩
    · rintro ⟨r', hr'⟩
      cases hr'
      exact ⟨h, rfl⟩
  | lost failures =>
    rw [conclude, Act.wp_bind]
    cases hb : Selection.selectBest (fun f => c.norm.of f.2.resid) failures with
    | error e => trivial
    | ok b =>
      obtain ⟨place, index, run⟩ := b
      have hf : run.success = false :=
        h _ (List.mem_of_getElem? (Selection.selectBest_getElem? hb))
      intro j
      constructor
      · rintro ⟨hs, -⟩
        exact absurd (hs.symm.trans hf) Bool.noConfusion
      · rintro ⟨r', hr'⟩
        cases hr'

omit [Scalar α] in
/-- Candidates that succeed wherever they did win no later than they did. -/
theorem wp_course_eased
    (hks : ∀ k r, ((c.solve k).run ()).result = .ok r → r.success = true →
      ∃ r', ((c'.solve k).run ()).result = .ok r' ∧ r'.success = true)
    (failures failures' : List (Nat × Run α n)) (i : Nat)
    (records records' : List (AttemptRecord α)) :
    (c.course total failures ks i).wp (fun course _ => ∀ j r, course = .won j r → i ≤ j ∧
      (c'.course total failures' ks i).wp (fun course' _ => ∃ j' r', course' = .won j' r' ∧
        j' ≤ j) (fun _ _ => True) records') (fun _ _ => True) records := by
  induction ks generalizing failures failures' i records records' with
  | nil =>
    intro j r hw
    cases hw
  | cons k ks ih =>
    cases hr : ((c.solve k).run ()).result with
    | error e => exact (c.wp_course_error hr _ _ _).mpr trivial
    | ok r =>
      cases hs : r.success with
      | true =>
        rw [c.wp_course_won hr hs]
        intro j r₁ hw
        obtain ⟨r', hr', hs'⟩ := hks k r hr hs
        cases hw
        exact ⟨Nat.le_refl i, (c'.wp_course_won hr' hs' _ _ _).mpr ⟨i, r', rfl, Nat.le_refl i⟩⟩
      | false =>
        rw [c.wp_course_failed hr hs]
        cases hr' : ((c'.solve k).run ()).result with
        | error e =>
          refine (ih _ [] _ _ []).mono (fun course _ h j r₁ hw => ?_) fun _ _ h => h
          exact ⟨by have := (h j r₁ hw).1; omega, (c'.wp_course_error hr' _ _ _).mpr trivial⟩
        | ok r' =>
          cases hs' : r'.success with
          | true =>
            refine (ih _ [] _ _ []).mono (fun course _ h j r₁ hw => ?_) fun _ _ h => h
            have hi := (h j r₁ hw).1
            exact ⟨by omega, (c'.wp_course_won hr' hs' _ _ _).mpr ⟨i, r', rfl, by omega⟩⟩
          | false =>
            refine (ih _ (failures' ++ [(i, r')]) _ _ (records' ++ [r'.record c'.norm i])).mono
              (fun course _ h j r₁ hw => ?_) fun _ _ h => h
            obtain ⟨hi, hrest⟩ := h j r₁ hw
            exact ⟨by omega, (c'.wp_course_failed hr' hs' _ _ _).mpr hrest⟩

end Fallback.Contest

/-- Where the first result is a success, so is the second, unless there is none, and the candidate
it is of comes no later. -/
def Solution.NoLater [Scalar α] (result result' : Except (Fault α) (Solution α n)) : Prop :=
  ∀ sol sol' i, result = .ok sol → sol.success = true → sol.candidate = some i →
    result' = .ok sol' → sol'.success = true ∧ ∃ i', i' ≤ i ∧ sol'.candidate = some i'

namespace Fallback.Contest

variable [Scalar α] {c c' : Contest α n κ} {ks : List κ}

theorem wp_solveInOrder_eased
    (hks : ∀ k r, ((c.solve k).run ()).result = .ok r → r.success = true →
      ∃ r', ((c'.solve k).run ()).result = .ok r' ∧ r'.success = true) :
    (c.solveInOrder ks).wp (fun sol _ => ∀ i, sol.success = true → sol.candidate = some i →
      (c'.solveInOrder ks).wp (fun sol' _ => sol'.success = true ∧
        ∃ i', i' ≤ i ∧ sol'.candidate = some i') (fun _ _ => True) []) (fun _ _ => True) [] := by
  unfold solveInOrder
  split
  · trivial
  · rw [Act.wp_bind]
    have hfair : (c.course ks.length [] ks 0).wp (fun course _ => course.Fair) (fun _ _ => True)
        [] := wp_course_fair (by simp) 0 []
    refine (hfair.and (wp_course_eased hks [] [] 0 [] [])).mono (fun course records h => ?_)
      fun _ _ h => h
    obtain ⟨hcourse, heased⟩ := h
    refine (wp_conclude_fair hcourse records).mono (fun sol _ hsol i hs hi => ?_) fun _ _ h => h
    obtain ⟨r, hr⟩ := (hsol i).mp ⟨hs, hi⟩
    have hfair' : (c'.course ks.length [] ks 0).wp (fun course _ => course.Fair)
        (fun _ _ => True) [] := wp_course_fair (by simp) 0 []
    rw [Act.wp_bind]
    refine (hfair'.and (heased i r hr).2).mono (fun course' records' h => ?_) fun _ _ h => h
    obtain ⟨hcourse', i', r', hr', hle⟩ := h
    refine (wp_conclude_fair hcourse' records').mono (fun sol' _ hsol' => ?_) fun _ _ h => h
    obtain ⟨hs', hi'⟩ := (hsol' i').mpr ⟨r', hr'⟩
    exact ⟨hs', i', hle, hi'⟩

theorem noLater_solveInOrder
    (hks : ∀ k r, ((c.solve k).run ()).result = .ok r → r.success = true →
      ∃ r', ((c'.solve k).run ()).result = .ok r' ∧ r'.success = true) :
    Solution.NoLater ((c.solveInOrder ks).run []).result ((c'.solveInOrder ks).run []).result :=
  fun _ _ i hsol hs hi hsol' => ((wp_solveInOrder_eased hks).of_ok hsol i hs hi).of_ok hsol'

end Fallback.Contest

theorem Solution.kept_success [Scalar α] (sol : Solution α n) : sol.kept.success = sol.success := by
  unfold kept
  cases h : sol.success with
  | true => rw [if_pos rfl, h]
  | false => rfl

theorem Solution.kept_candidate [Scalar α] (sol : Solution α n) :
    sol.kept.candidate = sol.candidate := by
  unfold kept
  split <;> rfl

/-- What kept sessions make of results is no later where the results are not. -/
theorem Solution.NoLater.kept [Scalar α] {result result' : Except (Fault α) (Solution α n)}
    (h : NoLater result result') : NoLater (result.map Solution.kept)
      (result'.map Solution.kept) := by
  intro sol sol' i hr hs hi hr'
  cases result with
  | error e => cases hr
  | ok s =>
    cases result' with
    | error e => cases hr'
    | ok s' =>
      obtain rfl := Except.ok.inj hr
      obtain rfl := Except.ok.inj hr'
      rw [kept_success] at hs ⊢
      rw [kept_candidate] at hi ⊢
      exact h s s' i rfl hs hi rfl

section Drivers

variable {call call' : Call} {o o' : Options Float} {P : Problem Float n}

variable [LinearRoutines Float]

/-- Candidates solved at once under the options of a call. -/
def fallback (owner : Solver) (P : Problem Float n) (norm : Norm Float) (call : Call) :
    Fallback.Contest Float n Candidate :=
  ⟨owner, P, norm, fun c => c.solve call P⟩

theorem noLater_fallback (he : call.Eased call' o o') (hb : o.budget ≤ o'.budget) (owner : Solver)
    (norm norm' : Norm Float) (cs : List Candidate) :
    Solution.NoLater (((fallback owner P norm call).solveInOrder cs).run []).result
      (((fallback owner P norm' call').solveInOrder cs).run []).result :=
  Fallback.Contest.noLater_solveInOrder fun _ _ hr hs => Candidate.solve_eased he hb hr hs

theorem Warm.Fresh.solve_result {owner : Solver} {cs : List Candidate} {w : Warm Float n}
    (hw : Fresh call P owner cs w) : (Warm.solve.run w).result =
      (((fallback owner P call.normOrDefault call).solveInOrder cs).run []).result.map
        Solution.kept := by
  apply Act.Alike.result_map
  refine alike_solve hw.owner.symm hw.norm.symm hw.problem? hw.nonempty hw.current ?_
  exact hw.started.imp fun c s hs => hs.solve_result

theorem Warm.noLater_solve (he : call.Eased call' o o') (hb : o.budget ≤ o'.budget)
    {owner : Solver} {cs : List Candidate} {w w' : Warm Float n}
    (hw : ((ofCandidates owner cs call P).run ()).result = .ok w)
    (hw' : ((ofCandidates owner cs call' P).run ()).result = .ok w') :
    Solution.NoLater (Warm.solve.run w).result (Warm.solve.run w').result := by
  rw [(fresh_ofCandidates hw).solve_result, (fresh_ofCandidates hw').solve_result]
  exact (noLater_fallback he hb owner _ _ cs).kept

namespace Polyalgorithm

variable (he : call.Eased call' o o') (hb : o.budget ≤ o'.budget) (p : Polyalgorithm)

include he hb

theorem noLater_solveList : Solution.NoLater ((p.solveList call P).run ()).result
    ((p.solveList call' P).run ()).result :=
  noLater_fallback he hb p.solver _ _ (p.candidates P.system.isInPlace false)

theorem noLater_solveFour : Solution.NoLater ((p.solveFour call P).run ()).result
    ((p.solveFour call' P).run ()).result := by
  unfold solveFour
  dsimp only
  rw [Fallback.Contest.solveFour_eq, Fallback.Contest.solveFour_eq]
  exact noLater_fallback he hb p.solver _ _
    [.newton none p.configuration, .newton (some Settings.initial) p.configuration,
      .customary .simple p.configuration, .customary .bastin p.configuration]

theorem noLater_solveWarm : Solution.NoLater ((p.solveWarm call P).run ()).result
    ((p.solveWarm call' P).run ()).result := by
  intro sol sol' i hr hs hi hr'
  obtain ⟨w, hw, hr⟩ := Act.result_bind_within hr
  obtain ⟨w', hw', hr'⟩ := Act.result_bind_within hr'
  exact Warm.noLater_solve he hb hw hw' sol sol' i hr hs hi hr'

theorem noLater_solve : Solution.NoLater ((p.solve call P).run ()).result
    ((p.solve call' P).run ()).result := by
  unfold solve
  cases p.preset with
  | robust => exact p.noLater_solveWarm he hb
  | fast =>
    dsimp only
    split
    · exact p.noLater_solveFour he hb
    · exact p.noLater_solveList he hb

end Polyalgorithm

end Drivers

/-- A success is one under every greater tolerance. A candidate then arrives at it no later and by
the same way, if the budget lasts as long; and where the budget is no less, every driver, and every
polyalgorithm, succeeds with a candidate that comes no later, unless one raises. -/
theorem success_under_greater_tolerance [LinearRoutines Float] {call call' : Call}
    {o o' : Options Float} (he : call.Eased call' o o') (problem : Problem Float n) :
    (∀ (c : Candidate) (r : Run Float n), ((c.solve call problem).run ()).result = .ok r →
      r.code = .success → r.stats.nsteps ≤ o'.budget →
      ∃ (s s' : Session Float n) (r' : Run Float n) (k : Nat),
        ((c.init call problem).run ()).result = .ok s ∧
        ((c.init call' problem).run ()).result = .ok s' ∧
        ((c.solve call' problem).run ()).result = .ok r' ∧
        r'.code = .success ∧ r'.stats.nsteps = k ∧ k ≤ r.stats.nsteps ∧
        (s'.after k).reading = (r'.u, r'.resid, r'.stats) ∧
        ∀ j, j ≤ k → (s'.after j).reading = (s.after j).reading) ∧
    (o.budget ≤ o'.budget →
      (∀ (owner : Solver) (norm : Norm Float) (cs : List Candidate),
        Solution.NoLater (((fallback owner problem norm call).solveInOrder cs).run []).result
          (((fallback owner problem norm call').solveInOrder cs).run []).result) ∧
      (∀ (owner : Solver) (norm : Norm Float) (c₁ c₂ c₃ c₄ : Candidate),
        Solution.NoLater (((fallback owner problem norm call).solveFour c₁ c₂ c₃ c₄).run []).result
          (((fallback owner problem norm call').solveFour c₁ c₂ c₃ c₄).run []).result) ∧
      (∀ (owner : Solver) (cs : List Candidate) (w w' : Warm Float n),
        ((Warm.ofCandidates owner cs call problem).run ()).result = .ok w →
        ((Warm.ofCandidates owner cs call' problem).run ()).result = .ok w' →
        Solution.NoLater (Warm.solve.run w).result (Warm.solve.run w').result) ∧
      ∀ p : Polyalgorithm,
        Solution.NoLater ((p.solve call problem).run ()).result
          ((p.solve call' problem).run ()).result ∧
        Solution.NoLater ((p.solveList call problem).run ()).result
          ((p.solveList call' problem).run ()).result ∧
        Solution.NoLater ((p.solveFour call problem).run ()).result
          ((p.solveFour call' problem).run ()).result) := by
  refine ⟨fun c r hr hs hb => ?_, fun hb => ⟨fun owner norm cs => ?_,
    fun owner norm c₁ c₂ c₃ c₄ => ?_, fun owner cs w w' hw hw' => ?_, fun p => ?_⟩⟩
  · obtain ⟨s, hstarted, hs'⟩ := Candidate.started_of_solve hr
    obtain ⟨r', k, hr', hcode, hle, hk, hreading, hall⟩ := hstarted.outcome_under he hs' hs hb
    have hstarted' := hstarted.under he
    exact ⟨s, s.under o', r', k, hstarted.returned, hstarted'.returned,
      hstarted'.solve_result.trans hr', hcode, hk, hk ▸ hle, hreading, hall⟩
  · exact noLater_fallback he hb owner norm norm cs
  · rw [Fallback.Contest.solveFour_eq, Fallback.Contest.solveFour_eq]
    exact noLater_fallback he hb owner norm norm _
  · exact Warm.noLater_solve he hb hw hw'
  · exact ⟨p.noLater_solve he hb, p.noLater_solveList he hb, p.noLater_solveFour he hb⟩

/-- A call that is content with two digits. -/
def Call.rough : Call := { Call.plain with tolerance := .num 1e-2 }

theorem success_under_greater_tolerance_parabola :
    Call.plain.Eased .rough ⟨1e-10, 1000, .l2⟩ ⟨1e-2, 1000, .l2⟩ ∧
    (∃ r r',
      (((Candidate.newton none Settings.initial).solve .plain parabola).run ()).result = .ok r ∧
      (r.code, r.stats.nsteps) = (.success, 3) ∧
      (((Candidate.newton none Settings.initial).solve .rough parabola).run ()).result = .ok r' ∧
      r'.code = .success ∧ r'.stats.nsteps ≤ 3) ∧
    ∃ w w',
      ((Warm.ofCandidates ⟨"pair", "pair"⟩ oddCouple .plain parabola).run ()).result = .ok w ∧
      ((Warm.ofCandidates ⟨"pair", "pair"⟩ oddCouple .rough parabola).run ()).result = .ok w' ∧
      Solution.NoLater (Warm.solve.run w).result (Warm.solve.run w').result := by
  have he : Call.plain.Eased .rough ⟨1e-10, 1000, .l2⟩ ⟨1e-2, 1000, .l2⟩ :=
    ⟨rfl, rfl, rfl, rfl, rfl, by decide +kernel⟩
  have hr : ((((Candidate.newton none Settings.initial).solve .plain parabola).run ()).result.map
      fun r => (r.code, r.stats.nsteps)).toOption = some (.success, 3) := by decide +kernel
  have hw : ((Warm.ofCandidates ⟨"pair", "pair"⟩ oddCouple .plain parabola).run ()).result.isOk =
    true := by decide +kernel
  have hw' : ((Warm.ofCandidates ⟨"pair", "pair"⟩ oddCouple .rough parabola).run ()).result.isOk =
    true := by decide +kernel
  obtain ⟨hcandidate, hdrivers⟩ := success_under_greater_tolerance he parabola
  refine ⟨he, ?_, ?_⟩
  · cases h : (((Candidate.newton none Settings.initial).solve .plain parabola).run ()).result with
    | error e => rw [h] at hr; cases hr
    | ok r =>
      rw [h] at hr
      obtain ⟨hcode, hsteps⟩ := Prod.mk.inj (Option.some.inj hr)
      obtain ⟨-, -, r', k, -, -, hr', hcode', hk, hle, -⟩ := hcandidate _ r h hcode
        (by rw [hsteps]; decide)
      exact ⟨r, r', rfl, Option.some.inj hr, hr', hcode', by omega⟩
  · obtain ⟨-, -, hwarm, -⟩ := hdrivers (Nat.le_refl _)
    cases h : ((Warm.ofCandidates ⟨"pair", "pair"⟩ oddCouple .plain parabola).run ()).result with
    | error e => rw [h] at hw; cases hw
    | ok w =>
      cases h' : ((Warm.ofCandidates ⟨"pair", "pair"⟩ oddCouple .rough parabola).run
        ()).result with
      | error e => rw [h'] at hw'; cases hw'
      | ok w' => exact ⟨w, w', rfl, rfl, hwarm _ _ w w' h h'⟩

end Rootfinder
