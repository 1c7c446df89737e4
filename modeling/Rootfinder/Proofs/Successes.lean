import Rootfinder.Proofs.Budget
import Rootfinder.Proofs.Cursor

namespace Rootfinder

namespace Warm

section Returned

variable {n : Nat} {w : Warm Float n}

def Unpassed (w : Warm Float n) : Prop :=
  ∀ (j : Nat) (s : Session Float n), j < w.current → w.sessions[j]? = some s →
    s.iteration.code ≠ .success

/-- A session that has converged stands before the cursor at a place, none from the cursor on
succeeds when they are driven, and then it is the first of the least residuals. -/
structure Overlooks (w : Warm Float n) (i : Nat) (s : Session Float n) : Prop where
  before : i < w.current
  place : w.sessions[i]? = some s
  converged : s.iteration.code = .success
  spent : (solve.run w).state.Spent w.current w.sessions.length
  least : Selection.Least (fun s => w.norm.of s.iteration.fu) (solve.run w).state.sessions i s

variable (w) in
/-- A solve that returns hands out the session at the cursor, which has converged, or the first of
the least residuals. -/
inductive HandsOut (sol : Solution Float n) (w' : Warm Float n) : Prop where
  | winner (s : Session Float n) (hle : w.current ≤ w'.current)
    (hs : w'.sessions[w'.current]? = some s) (hsuccess : s.iteration.code = .success)
    (hcode : sol.code = .success) (horiginal : sol.original = some s.snapshot)
  | best (i : Nat) (s : Session Float n) (hspent : w'.Spent w.current w.sessions.length)
    (hleast : Selection.Least (fun s => w.norm.of s.iteration.fu) w'.sessions i s)
    (hcode : sol.code = .maxIters) (horiginal : sol.original = some s.snapshot)

theorem hands_out (hk : w.current ≤ w.sessions.length) (hne : w.sessions ≠ [])
    {sol : Solution Float n} (h : (solve.run w).result = .ok sol) :
    w.HandsOut sol (solve.run w).state := by
  obtain ⟨d, -⟩ := List.exists_mem_of_ne_nil _ hne
  cases fate d hk with
  | won i hi hlt hf ha hw =>
    have hsolved := solved hk hne
    obtain ⟨hresult, hstate⟩ := returns_solve_won hi hlt ha hw hf.failed
    rw [hresult, hstate] at hsolved
    cases hsolved with
    | won hcode hle hs _ hsuccess _ horiginal =>
      obtain rfl := Except.ok.inj (hresult.symm.trans h)
      rw [hstate]
      exact .winner _ hle hs hsuccess hcode horiginal
    | lost hcode => exact absurd rfl hcode
  | lost hf =>
    have hne' : (w.advanced w.sessions.length w.sessions.length).sessions ≠ [] := by
      rw [← List.length_pos_iff, advanced_length]
      exact List.length_pos_iff.mpr hne
    obtain ⟨i, s, hi, hleast⟩ := @Selection.selectBest_least (Session Float n)
      (fun s => w.norm.of s.iteration.fu) _ hne'
    obtain ⟨hresult, hstate⟩ := returns_solve_lost hk hf.arrives hf.failed hi
    obtain rfl := Except.ok.inj (hresult.symm.trans h)
    rw [hstate]
    exact .best i s (hf.spent (Nat.le_refl _) _) hleast rfl rfl
  | raised i hi hf s hs e he =>
    rw [(solve_raises hi hf hs he).1] at h
    cases h

/-- However a solve ends, the sessions that it passed are over and have failed. -/
theorem Solved.spent {r : Except (Fault Float) (Solution Float n)} {w' : Warm Float n}
    (h : w.Solved r w') : w'.Spent w.current w'.current := by
  cases h with
  | won _ _ _ _ _ _ _ hspent => exact hspent
  | lost _ _ hspent => exact hspent
  | raised _ _ _ hspent => exact hspent

/-- A solve leaves the sessions before the cursor as they are. -/
theorem solve_before {j : Nat} (hk : w.current ≤ w.sessions.length) (hne : w.sessions ≠ [])
    (hj : j < w.current) : (solve.run w).state.sessions[j]? = w.sessions[j]? := by
  obtain ⟨d, -⟩ := List.exists_mem_of_ne_nil _ hne
  have hadvanced : ∀ stop cursor, (w.advanced stop cursor).sessions[j]? = w.sessions[j]? := by
    intro stop cursor
    have hn : ¬ (w.current ≤ j ∧ j < stop) := fun h => absurd h.1 (Nat.not_le.mpr hj)
    simp only [advanced_getElem?, hn, if_false, Option.map_id']
  cases fate d hk with
  | won i hi hlt hf ha hw =>
    rw [(returns_solve_won hi hlt ha hw hf.failed).2]
    exact hadvanced _ _
  | lost hf =>
    have hne' : (w.advanced w.sessions.length w.sessions.length).sessions ≠ [] := by
      rw [← List.length_pos_iff, advanced_length]
      exact List.length_pos_iff.mpr hne
    obtain ⟨i, s, hi⟩ := Selection.selectBest_ok
      (fun s : Session Float n => s.residualNorm (some w.norm)) hne'
    rw [(returns_solve_lost hk hf.arrives hf.failed hi).2]
    exact hadvanced _ _
  | raised i hi hf s hs e he =>
    rw [(solve_raises hi hf hs he).2]
    exact hadvanced _ _

theorem isSuccess_iff {c : ReturnCode} : c.isSuccess = true ↔ c = .success := beq_iff_eq

/-- Record and run agree on success unless a session that has converged is overlooked, and it is
then what is handed out. -/
theorem HandsOut.agreement (hk : w.current ≤ w.sessions.length) (hne : w.sessions ≠ [])
    {sol : Solution Float n} (h : w.HandsOut sol (solve.run w).state) :
    (∀ i s, w.Overlooks i s → sol.code = .maxIters ∧ sol.original = some s.snapshot) ∧
      ∃ run, sol.original = some run ∧ (sol.success = true → run.success = true) ∧
        ((sol.success = true ↔ run.success = true) ↔ ¬ ∃ i s, w.Overlooks i s) := by
  cases h with
  | winner s hle hs hsuccess hcode horiginal =>
    have hsol : sol.success = true := isSuccess_iff.mpr hcode
    have hrun : s.snapshot.success = true := isSuccess_iff.mpr hsuccess
    have hnone : ∀ i t, ¬ w.Overlooks i t := by
      -- the winner is among the sessions from the cursor on
      intro i t ho
      have hlt := (List.getElem?_eq_some_iff.mp hs).1
      rw [solve_length] at hlt
      exact (ho.spent _ s hle hlt hs).2 hsuccess
    refine ⟨fun i t ho => absurd ho (hnone i t), s.snapshot, horiginal, fun _ => hrun, fun _ => ?_,
      fun _ => iff_of_true hsol hrun⟩
    rintro ⟨i, t, ho⟩
    exact hnone i t ho
  | best i s hspent hleast hcode horiginal =>
    have hsol : sol.success ≠ true := by
      rw [Solution.success, hcode]
      exact Bool.false_ne_true
    refine ⟨fun j t ho => ?_, s.snapshot, horiginal, fun h => absurd h hsol, fun h => ?_,
      fun h => ?_⟩
    · obtain ⟨rfl, rfl⟩ := hleast.unique ho.least
      exact ⟨hcode, horiginal⟩
    · rintro ⟨j, t, ho⟩
      obtain ⟨rfl, rfl⟩ := hleast.unique ho.least
      exact hsol (h.mpr (isSuccess_iff.mpr ho.converged))
    · refine iff_of_false hsol fun hrun => h ⟨i, s, ?_⟩
      have hsuccess : s.iteration.code = .success := isSuccess_iff.mp hrun
      have hlt := (List.getElem?_eq_some_iff.mp hleast.place).1
      rw [solve_length] at hlt
      have hbefore : i < w.current := Nat.lt_of_not_le fun hle =>
        (hspent i s hle hlt hleast.place).2 hsuccess
      exact ⟨hbefore, solve_before hk hne hbefore ▸ hleast.place, hsuccess, hspent, hleast⟩

end Returned

section Histories

variable {n : Nat} {w : Warm Float n}

/-- A request that puts the cursor behind a session that has converged. -/
def Skips (w : Warm Float n) (r : Request) : Prop :=
  ∃ (v : Value) (k : Nat), r = .setCurrent v ∧ v.truncated = .ok (k : Int) ∧
    k ≤ w.sessions.length ∧ ¬ ({ w with current := k } : Warm Float n).Unpassed

/-- Requests to all sessions; none is driven or started over alone. -/
def Request.Together : Request → Prop
  | .one .. => False
  | _ => True

/-- Where each of the first states had some property, it still has. -/
theorem keeps_each_upto {σ : Type} {x : Act Float σ Unit} {Q : σ → Prop} (hx : x.Keeps Q)
    (k : Nat) :
    (Act.each x).Keeps fun ss => ∀ (j : Nat) (s : σ), j < k → ss[j]? = some s → Q s := by
  apply Act.keeps_of_wp
  intro ss
  induction ss generalizing k with
  | nil => exact fun h => h
  | cons s ss ih =>
    intro h
    have hcons : ∀ (t : σ) (ts : List σ), (0 < k → Q t) →
        (∀ (j : Nat) (u : σ), j < k - 1 → ts[j]? = some u → Q u) →
        ∀ (j : Nat) (u : σ), j < k → (t :: ts)[j]? = some u → Q u := by
      intro t ts ht hts j u hj hu
      cases j with
      | zero => exact Option.some.inj hu ▸ ht hj
      | succ j => exact hts j u (by omega) hu
    have hhead : 0 < k → Q s := fun hk => h 0 s hk rfl
    have htail : ∀ (j : Nat) (u : σ), j < k - 1 → ss[j]? = some u → Q u :=
      fun j u hj hu => h (j + 1) u (by omega) hu
    rw [Act.wp_each_cons]
    have hstate := fun hk : 0 < k => hx s (hhead hk)
    refine (Act.wp_self _ _).mono (fun _ s' hs' => ?_) fun _ s' hs' => ?_
    · obtain ⟨-, rfl⟩ := hs'
      exact (ih (k - 1) htail).mono (fun _ ss' => hcons _ ss' hstate)
        fun _ ss' => hcons _ ss' hstate
    · obtain ⟨-, rfl⟩ := hs'
      exact hcons _ ss hstate htail

theorem keeps_reinit_unpassed (start : Option (List Float)) (parameter : Option (Parameter Float)) :
    (reinit start parameter : Act Float (Warm Float n) Unit).Keeps Unpassed := by
  have hcode : (Session.reinit start parameter : Act Float (Session Float n) Unit).Keeps
      fun s => s.iteration.code ≠ .success := fun s hs =>
    Iteration.keeps_reinit (P := fun it => it.code ≠ .success)
      (fun _ _ hc _ => by rw [hc]; exact nofun) start parameter s.iteration hs
  exact fun w hw => keeps_each_upto hcode w.current w.sessions hw

theorem performStep_unpassed (hw : w.Unpassed) : (performStep.run w).state.Unpassed := by
  have hrun : performStep.run w = (on w.current Session.solve).run w := rfl
  intro j s hj hs
  rw [hrun, on_current] at hj
  refine hw j s hj ?_
  cases hc : w.sessions[w.current]? with
  | none => rwa [hrun, on_none hc] at hs
  | some t =>
    rw [hrun, on_some hc] at hs
    exact (List.getElem?_set_ne (Nat.ne_of_gt hj)).symm.trans hs

theorem solve_unpassed (hk : w.current ≤ w.sessions.length) (hne : w.sessions ≠ [])
    (hw : w.Unpassed) : (solve.run w).state.Unpassed := by
  intro j s hj hs
  by_cases hbefore : j < w.current
  · exact hw j s hbefore (solve_before hk hne hbefore ▸ hs)
  · exact ((solved hk hne).spent j s (Nat.le_of_not_lt hbefore) hj hs).2

/-- Only where the cursor is put does it come to stand behind a session that has converged. -/
theorem serve_unpassed {r : Request} (hk : w.current ≤ w.sessions.length) (hne : w.sessions ≠ [])
    (hw : w.Unpassed) (hr : r.Together) (hs : ¬ w.Skips r) :
    ((serve r).run w).state.Unpassed := by
  cases r with
  | performStep =>
    rw [run_serve_performStep]
    exact performStep_unpassed hw
  | solve =>
    rw [run_serve_solve]
    exact solve_unpassed hk hne hw
  | setCurrent v =>
    rw [run_serve_setCurrent]
    obtain ⟨k, hv, hle, hrun⟩ | ⟨e, hrun, -⟩ := setCurrent_cases w v
    · rw [hrun]
      exact Classical.byContradiction fun h => hs ⟨v, k, rfl, hv, hle, h⟩
    · rwa [hrun]
  | reinit start parameter =>
    have hkeeps := keeps_reinitAt
      (fun xs => keeps_reinit_unpassed (n := n) xs parameter) start
    exact hkeeps.bind (fun _ => Act.keeps_pure none) w hw
  | one i q => exact hr.elim

end Histories

end Warm

/-- Success of what is handed out and of the run it was made from. Whatever is asked of kept
sessions, a solve that succeeds hands out a run that did; the two disagree exactly where a session
before the cursor that has converged is the first of the least residuals and none from the cursor on
succeeds, and it is then handed out under the code of a run out of steps. As long as sessions are
asked together and the cursor is not put behind one that has converged, they always agree. -/
theorem successes_agree {n : Nat} {owner : Solver} {sessions : List (Session Float n)}
    {w₀ : Warm Float n} (h₀ : Warm.ofSessions owner sessions = .ok w₀) :
    (∀ w, Act.Reached Warm.serve (fun _ => True) w₀ w →
      ∀ sol, (Warm.solve.run w).result = .ok sol →
        (∀ i s, w.Overlooks i s → sol.code = .maxIters ∧ sol.original = some s.snapshot) ∧
          ∃ run, sol.original = some run ∧ (sol.success = true → run.success = true) ∧
            ((sol.success = true ↔ run.success = true) ↔ ¬ ∃ i s, w.Overlooks i s)) ∧
    ∀ rs w, Act.Served Warm.serve (fun w r => r.Together ∧ ¬ w.Skips r) w₀ rs w →
      ∀ sol, (Warm.solve.run w).result = .ok sol → ∃ run, sol.original = some run ∧
        (sol.success = true ↔ run.success = true) := by
  obtain ⟨hsome, rfl⟩ := Warm.ofSessions_eq_ok.mp h₀
  have hpos := List.length_pos_iff.mpr hsome
  refine ⟨fun w h sol hsol => ?_, fun rs w h sol hsol => ?_⟩
  · have hw := Warm.placed_of_reached h₀ h
    have hk := hw.current_le
    have hne := hw.ne_nil hpos
    exact (Warm.hands_out hk hne hsol).agreement hk hne
  · have hw : w.Placed sessions.length ∧ w.Unpassed := by
      refine h.keeps (P := fun w => w.Placed sessions.length ∧ w.Unpassed)
        ⟨⟨rfl, Nat.zero_le _⟩, fun j s hj => absurd hj (Nat.not_lt_zero j)⟩ fun v r hv hr => ?_
      have hkept := Warm.serve_unpassed hv.1.current_le (hv.1.ne_nil hpos) hv.2 hr.1 hr.2
      exact ⟨Warm.keeps_placed hpos r v hv.1, hkept⟩
    have hk := hw.1.current_le
    have hne := hw.1.ne_nil hpos
    obtain ⟨-, run, horiginal, -, hagree⟩ := (Warm.hands_out hk hne hsol).agreement hk hne
    refine ⟨run, horiginal, hagree.mpr ?_⟩
    rintro ⟨i, s, ho⟩
    exact hw.2 i s ho.before ho.place ho.converged

/-- The second session of two succeeds; the cursor stays on it when they are asked to step. -/
def stagedOn : Warm Float 1 :=
  ((Warm.serve .performStep).run ((Warm.serve .solve).run (Warm.staged .success)).state).state

/-- The same with the cursor put behind both. -/
def stagedPast : Warm Float 1 := ((Warm.serve (.setCurrent (.int 2))).run stagedOn).state

theorem successes_agree_staged :
    Warm.ofSessions (Warm.staged .success).owner (Warm.staged .success).sessions =
      .ok (Warm.staged .success) ∧
    Act.Served Warm.serve (fun w r => r.Together ∧ ¬ w.Skips r) (Warm.staged .success)
      [.solve, .performStep] stagedOn ∧
    Act.Reached Warm.serve (fun _ => True) (Warm.staged .success) stagedPast ∧
    (∃ sol run, (Warm.solve.run stagedOn).result = .ok sol ∧ sol.original = some run ∧
      sol.success = true ∧ run.success = true) ∧
    ∃ i s, stagedPast.Overlooks i s := by
  have h₀ : Warm.ofSessions (Warm.staged .success).owner (Warm.staged .success).sessions =
      .ok (Warm.staged .success) := rfl
  have hserved : Act.Served Warm.serve (fun w r => r.Together ∧ ¬ w.Skips r)
      (Warm.staged .success) [.solve, .performStep] stagedOn := by
    refine .more ⟨trivial, ?_⟩ (.more ⟨trivial, ?_⟩ (.none _)) <;> rintro ⟨v, k, h, -⟩ <;> cases h
  have hreached : Act.Reached Warm.serve (fun _ => True) (Warm.staged .success) stagedPast :=
    .after (.after (.after .start Warm.Request.solve trivial) Warm.Request.performStep trivial)
      (Warm.Request.setCurrent (.int 2)) trivial
  obtain ⟨hreach, hserve⟩ := successes_agree h₀
  refine ⟨h₀, hserved, hreached, ?_, ?_⟩
  · have hwins : (Warm.solve.run stagedOn).result.toOption.map Solution.success = some true := by
      decide +kernel
    cases hsol : (Warm.solve.run stagedOn).result with
    | error e =>
      rw [hsol] at hwins
      cases hwins
    | ok sol =>
      obtain ⟨run, horiginal, hagree⟩ := hserve _ _ hserved sol hsol
      rw [hsol] at hwins
      have hwon : sol.success = true := Option.some.inj hwins
      exact ⟨sol, run, rfl, horiginal, hwon, hagree.mp hwon⟩
  · have hparts : (Warm.solve.run stagedPast).result.toOption.map
        (fun sol => (sol.success, sol.original.map Run.success)) = some (false, some true) := by
      decide +kernel
    cases hsol : (Warm.solve.run stagedPast).result with
    | error e =>
      rw [hsol] at hparts
      cases hparts
    | ok sol =>
      obtain ⟨-, run, horiginal, -, hagree⟩ := hreach _ hreached sol hsol
      rw [hsol] at hparts
      obtain ⟨hsuccess, hrun⟩ := Prod.mk.inj (Option.some.inj hparts)
      rw [horiginal] at hrun
      refine Classical.byContradiction fun hnone => ?_
      rw [hagree.mpr hnone |>.mpr (Option.some.inj hrun)] at hsuccess
      cases hsuccess

/-- The kept candidates of a preset on a parabola. -/
def keptOnParabola : Except (Fault Float) (Warm Float 1) :=
  (((⟨.robust, Settings.initial⟩ : Polyalgorithm).init .plain parabola).run ()).result

def Warm.solvedPast (w : Warm Float 1) : Warm Float 1 :=
  ((serve (.setCurrent (.int 5))).run ((serve .solve).run w).state).state

/-- The first of the candidates finds the root, the cursor is put behind the last, and the next
solve hands the root out as a failure. -/
theorem converged_under_max_iters :
    ∃ w₀ w, keptOnParabola = .ok w₀ ∧ Act.Reached Warm.serve Warm.Request.Together w₀ w ∧
      ∃ sol run, (Warm.solve.run w).result = .ok sol ∧ sol.original = some run ∧
        run.code = .success ∧ sol.code = .maxIters := by
  have hcodes : keptOnParabola.toOption.bind (fun w₀ =>
      (Warm.solve.run w₀.solvedPast).result.toOption.map fun sol =>
        (sol.code, sol.original.map Run.code)) = some (.maxIters, some .success) := by
    decide +kernel
  cases h₀ : keptOnParabola with
  | error e =>
    rw [h₀] at hcodes
    cases hcodes
  | ok w₀ =>
    rw [h₀] at hcodes
    obtain ⟨sol, hsol, hpair⟩ := Option.map_eq_some_iff.mp hcodes
    obtain ⟨hcode, hrun⟩ := Prod.mk.inj hpair
    obtain ⟨run, horiginal, hsuccess⟩ := Option.map_eq_some_iff.mp hrun
    refine ⟨w₀, w₀.solvedPast, rfl, .after (.after .start Warm.Request.solve trivial)
      (Warm.Request.setCurrent (.int 5)) trivial, sol, run, ?_, horiginal, hsuccess, hcode⟩
    cases hresult : (Warm.solve.run w₀.solvedPast).result with
    | error e =>
      rw [hresult] at hsol
      cases hsol
    | ok sol' =>
      rw [hresult] at hsol
      exact congrArg Except.ok (Option.some.inj hsol)

end Rootfinder
