import Rootfinder.Linear.Textbook
import Rootfinder.Proofs.Candidates
import Rootfinder.Proofs.OneShot
import Rootfinder.Proofs.Warm

namespace Rootfinder

variable {α κ : Type} {n : Nat}

namespace Fallback.Contest

variable (c : Contest α n κ) {candidate : κ} {total : Nat} {records : List (AttemptRecord α)}
  {broken : Fault α → List (AttemptRecord α) → Prop}

section Attempt

variable {post : Run α n → List (AttemptRecord α) → Prop}

theorem returns_attempt {r : Run α n} (h : ((c.solve candidate).run ()).result = .ok r)
    (failures index : Nat) : (c.attempt total failures index candidate).Returns records r
      (records ++ [r.record c.norm index]) := by
  have hs : (c.solve candidate).Returns () r () := ⟨h, rfl⟩
  apply Act.returns_of_wp
  simp only [attempt, Act.wp_bind, Act.wp_within, hs.wp_iff, Act.wp_update,
    AttemptRecord.wp_report]
  exact ⟨rfl, rfl⟩

theorem wp_attempt_error {e : Fault α} (h : ((c.solve candidate).run ()).result = .error e)
    (failures index : Nat) : (c.attempt total failures index candidate).wp post broken records ↔
      broken e records := by
  simp only [attempt, Act.wp_bind, Act.wp_within]
  simp only [Act.wp, h]

end Attempt

variable {post : Course α n → List (AttemptRecord α) → Prop}

theorem wp_course_won {r : Run α n} (h : ((c.solve candidate).run ()).result = .ok r)
    (hw : r.success = true) (failures : List (Nat × Run α n)) (rest : List κ) (index : Nat) :
    (c.course total failures (candidate :: rest) index).wp post broken records ↔
      post (.won index r) (records ++ [r.record c.norm index]) := by
  rw [course, Act.wp_bind, (c.returns_attempt h _ _).wp_iff, if_pos hw, Act.wp_pure]

theorem wp_course_failed {r : Run α n} (h : ((c.solve candidate).run ()).result = .ok r)
    (hf : r.success = false) (failures : List (Nat × Run α n)) (rest : List κ) (index : Nat) :
    (c.course total failures (candidate :: rest) index).wp post broken records ↔
      (c.course total (failures ++ [(index, r)]) rest (index + 1)).wp post broken
        (records ++ [r.record c.norm index]) := by
  rw [course, Act.wp_bind, (c.returns_attempt h _ _).wp_iff, if_neg (by simp [hf])]

theorem wp_course_error {e : Fault α} (h : ((c.solve candidate).run ()).result = .error e)
    (failures : List (Nat × Run α n)) (rest : List κ) (index : Nat) :
    (c.course total failures (candidate :: rest) index).wp post broken records ↔
      broken e records := by
  rw [course, Act.wp_bind, c.wp_attempt_error h]

end Fallback.Contest

variable [Scalar α]

namespace Warm

variable {w : Warm α n}

theorem wp_drive_error {s : Session α n} {e : Fault α} (hs : w.sessions[w.current]? = some s)
    (he : s.outcome = .error e) (norm : Norm α) (left : Nat) (records : List (AttemptRecord α))
    {post : Option (Nat × Run α n) × List (AttemptRecord α) → Warm α n → Prop}
    {broken : Fault α → Warm α n → Prop} :
    (drive norm (left + 1) records).wp post broken w ↔
      broken e (w.advanced (w.current + 1) w.current) := by
  rw [drive, Act.wp_bind, Act.wp_read, Act.wp_bind, performStep, Act.wp_bind, Act.wp_read,
    wp_on hs, advanced_succ w hs]
  unfold Act.wp
  have he' : (Session.solve.run s).result = .error e := he
  simp only [he']
  rfl

def passed (w : Warm α n) : List (Nat × Run α n) :=
  (w.sessions.take w.current).mapIdx fun j s => (j, s.snapshot)

theorem passed_advanced {s : Session α n} (hs : w.sessions[w.current]? = some s) {r : Run α n}
    (hr : s.outcome = .ok r) :
    (w.advanced (w.current + 1) (w.current + 1)).passed = w.passed ++ [(w.current, r)] := by
  have hlt := (List.getElem?_eq_some_iff.mp hs).1
  have hlen : (w.sessions.take w.current).length = w.current := by
    rw [List.length_take]
    omega
  have htake : (w.sessions.set w.current s.driven).take (w.current + 1) =
      w.sessions.take w.current ++ [s.driven] := by
    simp [List.take_add_one, hlt, List.take_set_of_le]
  rw [passed, advanced_succ w hs, htake, List.mapIdx_concat, hlen, ← Session.outcome_snapshot hr,
    passed]

theorem drop_advanced {s : Session α n} (hs : w.sessions[w.current]? = some s) :
    (w.advanced (w.current + 1) (w.current + 1)).sessions.drop (w.current + 1) =
      w.sessions.drop (w.current + 1) := by
  rw [advanced_succ w hs]
  exact List.drop_set_of_lt (Nat.lt_succ_self _)

/-- What kept sessions and fresh candidates arrive at: the same run, or the same failures, which
the sessions then show. -/
def Abreast (w : Warm α n) (driven : Option (Nat × Run α n) × List (AttemptRecord α))
    (after : Warm α n) (course : Fallback.Contest.Course α n)
    (records : List (AttemptRecord α)) : Prop :=
  driven.2 = records ∧ after.problem? = w.problem? ∧ match course with
    | .won i r => driven.1 = some (i, r) ∧ r.code = .success
    | .lost failures => driven.1 = none ∧ after.sessions.length = w.sessions.length ∧
        failures = (after.sessions.mapIdx fun j s => (j, s.snapshot)) ∧
        ∀ f ∈ failures, f.2.success = false

theorem Abreast.of_advanced {stop cursor : Nat} {driven after course}
    {records : List (AttemptRecord α)}
    (h : Abreast (w.advanced stop cursor) driven after course records) :
    Abreast w driven after course records := by
  obtain ⟨hr, hp, hc⟩ := h
  rw [advanced_problem?] at hp
  refine ⟨hr, hp, ?_⟩
  cases course with
  | won i r => exact hc
  | lost failures => rwa [advanced_length] at hc

/-- Both drivers meet what the candidates arrive at in the same order. -/
theorem alike_drive (c : Fallback.Contest α n κ) {rest : List κ} (total : Nat)
    (hrest : List.Forall₂ (fun k s => ((c.solve k).run ()).result = s.outcome) rest
      (w.sessions.drop w.current)) (hpassed : ∀ f ∈ w.passed, f.2.success = false)
    (records : List (AttemptRecord α)) :
    Act.Alike (drive c.norm rest.length records) w (c.course total w.passed rest w.current) records
      (Abreast w) := by
  induction rest generalizing w records with
  | nil =>
    have hk : w.sessions.length ≤ w.current := by
      rw [← List.drop_eq_nil_iff]
      exact List.forall₂_nil_left_iff.mp hrest
    refine ⟨rfl, rfl, rfl, rfl, ?_, hpassed⟩
    rw [passed, List.take_of_length_le hk]
    rfl
  | cons k rest ih =>
    obtain ⟨s, ss, hks, hss, hdrop⟩ := List.forall₂_cons_left_iff.mp hrest
    have hs : w.sessions[w.current]? = some s := by
      rw [← List.head?_drop, hdrop]
      rfl
    have hrest' : w.sessions.drop (w.current + 1) = ss := by
      rw [← List.tail_drop, hdrop]
      rfl
    unfold Act.Alike
    rw [List.length_cons]
    cases ho : s.outcome with
    | error e =>
      rw [ho] at hks
      rw [wp_drive_error hs ho, c.wp_course_error hks]
    | ok r =>
      rw [ho] at hks
      by_cases hw : r.success = true
      · rw [wp_drive_won hs ho hw, c.wp_course_won hks hw]
        exact ⟨rfl, advanced_problem? _ _ _, rfl, eq_of_beq hw⟩
      · have hf : r.success = false := by simpa using hw
        have hnext : List.Forall₂ (fun k s => ((c.solve k).run ()).result = s.outcome) rest
            ((w.advanced (w.current + 1) (w.current + 1)).sessions.drop (w.current + 1)) := by
          rw [drop_advanced hs, hrest']
          exact hss
        have hpassed' : ∀ f ∈ (w.advanced (w.current + 1) (w.current + 1)).passed,
            f.2.success = false := by
          intro f hm
          rw [passed_advanced hs ho] at hm
          rcases List.mem_append.mp hm with hm | hm
          · exact hpassed f hm
          · rw [List.mem_singleton.mp hm]
            exact hf
        rw [wp_drive_failed hs ho hf]
        simp only [c.wp_course_failed hks hf, ← passed_advanced hs ho]
        refine (ih hnext hpassed' _).mono (fun d after h => ?_) fun e _ h => h
        exact h.mono (fun course records h => h.of_advanced) fun _ _ h => h

end Warm

/-- What kept sessions make of the result of fresh candidates: a failure is one of them all. -/
def Solution.kept (sol : Solution α n) : Solution α n :=
  if sol.success then sol else { sol with code := .maxIters }

namespace Warm

variable {w after : Warm α n} {c : Fallback.Contest α n κ}
  {driven : Option (Nat × Run α n) × List (AttemptRecord α)}
  {course : Fallback.Contest.Course α n} {records : List (AttemptRecord α)}

theorem alike_conclude (ho : c.owner = w.owner) (hn : c.norm = w.norm)
    (hp : w.problem? = some c.problem) (hne : w.sessions ≠ [])
    (h : Abreast w driven after course records) :
    Act.Alike (w.conclude driven) after (c.conclude course) records
      (fun kept _ sol _ => kept = sol.kept) := by
  obtain ⟨d, records'⟩ := driven
  obtain ⟨rfl, hp', hc⟩ := h
  rw [hp] at hp'
  cases course with
  | won i r =>
    obtain ⟨rfl, hr⟩ := hc
    show _ = _
    simp only [Solution.kept, Solution.success, Run.wrap, hr, hp', ho]
    rfl
  | lost failures =>
    obtain ⟨rfl, hlen, hf, hfail⟩ := hc
    have hat : ∀ (j : Nat) (s : Session α n), after.sessions[j]? = some s →
        failures[j]? = some (j, s.snapshot) := by
      intro j s hs
      rw [hf, List.getElem?_mapIdx, hs, Option.map_some]
    have hindexed : Fallback.Contest.Indexed failures := by
      intro j f hj
      rw [hf, List.getElem?_mapIdx] at hj
      obtain ⟨s, -, rfl⟩ := Option.map_eq_some_iff.mp hj
      rfl
    have hruns : failures.map Prod.snd = after.sessions.map Session.snapshot := by
      apply List.ext_getElem?
      intro j
      rw [hf]
      simp only [List.getElem?_map, List.getElem?_mapIdx, Option.map_map]
      rfl
    have hne' : after.sessions ≠ [] := by
      rw [← List.length_pos_iff, hlen]
      exact List.length_pos_iff.mpr hne
    obtain ⟨i, s, hb⟩ := Selection.selectBest_ok
      (fun s : Session α n => s.residualNorm (some w.norm)) hne'
    have hchoice : Selection.selectBest (fun r => c.norm.of r.resid) (failures.map Prod.snd) =
        .ok (i, s.snapshot) := by
      rw [hruns, Selection.selectBest_map, hn]
      exact congrArg _ hb
    have hs : s.snapshot.code.isSuccess = false :=
      hfail _ (List.mem_of_getElem? (hat i s (Selection.selectBest_getElem? hb)))
    unfold Act.Alike
    rw [wp_conclude_lost hb, c.conclude_lost hindexed, hchoice]
    show _ = _
    simp only [Solution.kept, Solution.success, Run.wrap, hs, hp', ho]
    rfl

/-- From a cursor on the first session, a solve ends as one with the candidates that the sessions
were made from. -/
theorem alike_solve {candidates : List κ} (ho : c.owner = w.owner) (hn : c.norm = w.norm)
    (hp : w.problem? = some c.problem) (hne : w.sessions ≠ []) (hk : w.current = 0)
    (hcs : List.Forall₂ (fun k s => ((c.solve k).run ()).result = s.outcome) candidates
      w.sessions) :
    Act.Alike solve w (c.solveInOrder candidates) [] (fun kept _ sol _ => kept = sol.kept) := by
  have hlen := hcs.length_eq
  have hcs' : candidates.isEmpty = false := by
    rw [List.isEmpty_eq_false_iff, ← List.length_pos_iff, hlen]
    exact List.length_pos_iff.mpr hne
  have hnone : w.passed = [] := by
    rw [passed, hk]
    rfl
  have hdrop : List.Forall₂ (fun k s => ((c.solve k).run ()).result = s.outcome) candidates
      (w.sessions.drop w.current) := by
    rwa [hk, List.drop_zero]
  have hdrive := alike_drive c candidates.length hdrop (by simp [hnone]) []
  have hboth : Act.Alike (drive c.norm candidates.length [] >>= w.conclude) w
      (c.course candidates.length w.passed candidates w.current >>= c.conclude) []
      (fun kept _ sol _ => kept = sol.kept) :=
    hdrive.bind fun _ _ _ _ h => alike_conclude ho hn hp hne h
  have hfresh : c.solveInOrder candidates =
      c.course candidates.length [] candidates 0 >>= c.conclude := by
    rw [Fallback.Contest.solveInOrder, hcs', if_neg Bool.false_ne_true]
  rw [hnone, hk, ← hfresh] at hboth
  unfold Act.Alike at hboth ⊢
  rw [wp_solve, ← Act.wp_bind, hk, ← hlen, Nat.sub_zero, ← hn]
  exact hboth

end Warm

/-- A solve of sessions that were all just started, and one with the same candidates made afresh,
end the same: with the same fault, or with the same result but for the code of a failure. -/
theorem kept_agrees_with_fresh [LinearRoutines Float] {owner : Solver} {candidates : List Candidate}
    {call : Call} {problem : Problem Float n} {w : Warm Float n}
    (h : ((Warm.ofCandidates owner candidates call problem).run ()).result = .ok w) :
    (Warm.solve.run w).result =
      (((⟨owner, problem, call.normOrDefault, fun c => c.solve call problem⟩ :
        Fallback.Contest Float n Candidate).solveInOrder candidates).run []).result.map
          Solution.kept := by
  have hw := Warm.fresh_ofCandidates h
  apply Act.Alike.result_map
  refine Warm.alike_solve hw.owner.symm hw.norm.symm hw.problem? hw.nonempty hw.current ?_
  exact hw.started.imp fun c s hs => hs.solve_result

theorem kept_agrees_with_fresh_parabola : ∃ w sol,
    ((Warm.ofCandidates ⟨"pair", "pair"⟩ oddCouple .plain parabola).run ()).result = .ok w ∧
    (((⟨⟨"pair", "pair"⟩, parabola, .l2, fun c => c.solve .plain parabola⟩ :
      Fallback.Contest Float 1 Candidate).solveInOrder oddCouple).run []).result = .ok sol ∧
    (sol.code, sol.candidate) = (.success, some 1) ∧
    (Warm.solve.run w).result = .ok sol.kept := by
  have hw : ((Warm.ofCandidates ⟨"pair", "pair"⟩ oddCouple .plain parabola).run ()).result.isOk =
    true := by decide +kernel
  have hs : ((((⟨⟨"pair", "pair"⟩, parabola, .l2, fun c => c.solve .plain parabola⟩ :
      Fallback.Contest Float 1 Candidate).solveInOrder oddCouple).run []).result.map
        fun s => (s.code, s.candidate)).toOption = some (.success, some 1) := by decide +kernel
  cases h : ((Warm.ofCandidates ⟨"pair", "pair"⟩ oddCouple .plain parabola).run ()).result with
  | error e => rw [h] at hw; cases hw
  | ok w =>
    have hagree := kept_agrees_with_fresh h
    cases hf : (((⟨⟨"pair", "pair"⟩, parabola, .l2, fun c => c.solve .plain parabola⟩ :
      Fallback.Contest Float 1 Candidate).solveInOrder oddCouple).run []).result with
    | error e => rw [hf] at hs; cases hs
    | ok sol =>
      rw [hf] at hs
      refine ⟨w, sol, rfl, rfl, Option.some.inj hs, ?_⟩
      rw [hagree]
      exact congrArg _ hf

end Rootfinder
