import Rootfinder.Proofs.GreaterTolerance

namespace Rootfinder

/-- The record of the same attempt with `count` further ones in front. -/
def AttemptRecord.behind {α : Type} (count : Nat) (a : AttemptRecord α) : AttemptRecord α :=
  { a with index := a.index + count }

/-- A result that comes of the same run as another, with `count` candidates in front. -/
structure Solution.Behind {α : Type} {n : Nat} (count : Nat) (A B : Solution α n) : Prop where
  candidate : A.candidate = B.candidate.map (· + count)
  u : A.u = B.u
  resid : A.resid = B.resid
  stats : A.stats = B.stats

theorem Solution.Behind.kept {α : Type} [Scalar α] {n count : Nat} {A B : Solution α n}
    (h : A.Behind count B) : A.Behind count B.kept := by
  unfold Solution.kept
  split
  · exact h
  · exact ⟨h.candidate, h.u, h.resid, h.stats⟩

theorem Solution.kept_attempts {α : Type} [Scalar α] {n : Nat} (sol : Solution α n) :
    sol.kept.attempts = sol.attempts := by
  unfold kept
  split <;> rfl

namespace Fallback.Contest

section Attempts

variable {α κ : Type} {n : Nat} (c : Contest α n κ)

def Failing [Scalar α] (candidates : List κ) (runs : List (Run α n)) : Prop :=
  List.Forall₂ (fun k r => ((c.solve k).run ()).result = .ok r ∧ r.success = false) candidates runs

def recordsOf (runs : List (Run α n)) : List (AttemptRecord α) :=
  runs.mapIdx fun i r => r.record c.norm i

theorem recordsOf_append (before runs : List (Run α n)) :
    c.recordsOf (before ++ runs) =
      c.recordsOf before ++ (c.recordsOf runs).map (AttemptRecord.behind before.length) := by
  rw [recordsOf, List.mapIdx_append]
  refine congrArg (c.recordsOf before ++ ·) (List.ext_getElem? fun i => ?_)
  simp [recordsOf, Function.comp_def, Run.record, AttemptRecord.behind]

theorem recordsOf_concat (before : List (Run α n)) (r : Run α n) :
    c.recordsOf (before ++ [r]) = c.recordsOf before ++ [r.record c.norm before.length] :=
  List.mapIdx_concat

variable [Scalar α] {c}

theorem Failing.append {firsts rest : List κ} {before runs : List (Run α n)}
    (h : c.Failing firsts before) (h' : c.Failing rest runs) :
    c.Failing (firsts ++ rest) (before ++ runs) := List.rel_append h h'

theorem Failing.success {candidates : List κ} {runs : List (Run α n)}
    (h : c.Failing candidates runs) : ∀ r ∈ runs, r.success = false := by
  intro r hr
  obtain ⟨k, -, -, hs⟩ := forall₂_mem h hr
  exact hs

theorem failing_of_forall {candidates : List κ}
    (h : ∀ k ∈ candidates, ∃ r, ((c.solve k).run ()).result = .ok r ∧ r.success = false) :
    ∃ runs, c.Failing candidates runs := by
  induction candidates with
  | nil => exact ⟨[], .nil⟩
  | cons k ks ih =>
    obtain ⟨⟨r, hr⟩, hks⟩ := List.forall_mem_cons.mp h
    obtain ⟨runs, hruns⟩ := ih hks
    exact ⟨r :: runs, .cons hr hruns⟩

/-- What is seen of their runs shows that candidates fail. -/
theorem failing_of_shown {candidates : List κ}
    (h : ∀ k ∈ candidates, (((c.solve k).run ()).result.map Run.success).toOption = some false) :
    ∃ runs, c.Failing candidates runs :=
  failing_of_forall fun k hk => except_shown (h k hk)

/-- Candidates that fail are tried one after the other. -/
theorem wp_course_failing {candidates : List κ} {runs : List (Run α n)}
    (h : c.Failing candidates runs) (total : Nat) (rest : List κ) (before : List (Run α n))
    {post : Course α n → List (AttemptRecord α) → Prop}
    {broken : Fault α → List (AttemptRecord α) → Prop} :
    (c.course total (before.mapIdx Prod.mk) (candidates ++ rest) before.length).wp post broken
        (c.recordsOf before) ↔
      (c.course total ((before ++ runs).mapIdx Prod.mk) rest (before ++ runs).length).wp post broken
        (c.recordsOf (before ++ runs)) := by
  induction h generalizing before with
  | nil => simp
  | @cons k r candidates runs hr _ ih =>
    have hnext := ih (before ++ [r])
    rw [List.mapIdx_concat, List.length_append, List.length_singleton, recordsOf_concat,
      List.append_assoc, List.singleton_append] at hnext
    rw [List.cons_append, c.wp_course_failed hr.1 hr.2]
    exact hnext

/-- Behind candidates that fail, the others are tried from where these left off. -/
theorem wp_solveInOrder_failing {firsts rest : List κ} {before : List (Run α n)}
    (h : c.Failing firsts before) (hne : firsts ++ rest ≠ [])
    {post : Solution α n → List (AttemptRecord α) → Prop}
    {broken : Fault α → List (AttemptRecord α) → Prop} :
    (c.solveInOrder (firsts ++ rest)).wp post broken [] ↔
      (c.course (firsts ++ rest).length (before.mapIdx Prod.mk) rest before.length).wp
        (fun course => (c.conclude course).wp post broken) broken (c.recordsOf before) := by
  rw [solveInOrder, if_neg (by simpa using hne), Act.wp_bind]
  exact wp_course_failing h _ rest []

/-- The first success is the result. -/
theorem returns_solveInOrder_won {firsts rest : List κ} {k : κ} {before : List (Run α n)}
    {r : Run α n} (h : c.Failing firsts before) (hr : ((c.solve k).run ()).result = .ok r)
    (hs : r.success = true) :
    (c.solveInOrder (firsts ++ k :: rest)).Returns []
      (r.wrap c.owner (some c.problem) before.length (c.recordsOf (before ++ [r])) r.code)
      (c.recordsOf (before ++ [r])) := by
  apply Act.returns_of_wp
  rw [wp_solveInOrder_failing h (by simp), c.wp_course_won hr hs, ← recordsOf_concat]
  exact ⟨rfl, rfl⟩

theorem solveInOrder_raises {firsts rest : List κ} {k : κ} {before : List (Run α n)}
    {e : Fault α} (h : c.Failing firsts before) (hr : ((c.solve k).run ()).result = .error e) :
    ((c.solveInOrder (firsts ++ k :: rest)).run []).result = .error e := by
  have hw : (c.solveInOrder (firsts ++ k :: rest)).wp (fun _ _ => False) (fun e' _ => e' = e)
      [] := by
    rw [wp_solveInOrder_failing h (by simp), c.wp_course_error hr]
  obtain ⟨e', he, rfl⟩ := hw.raises
  exact he

/-- Either all candidates fail, or there is a first one that succeeds or raises. -/
theorem failing_or_first (candidates : List κ) : (∃ runs, c.Failing candidates runs) ∨
    ∃ firsts k rest before, candidates = firsts ++ k :: rest ∧ c.Failing firsts before ∧
      ∀ r, ((c.solve k).run ()).result = .ok r → r.success = true := by
  induction candidates with
  | nil => exact .inl ⟨[], .nil⟩
  | cons k ks ih =>
    by_cases hk : ∀ r, ((c.solve k).run ()).result = .ok r → r.success = true
    · exact .inr ⟨[], k, ks, [], rfl, .nil, hk⟩
    · push Not at hk
      obtain ⟨r, hr, hs⟩ := hk
      have hfails : ((c.solve k).run ()).result = .ok r ∧ r.success = false :=
        ⟨hr, by simpa using hs⟩
      rcases ih with ⟨runs, hruns⟩ | ⟨firsts, k', rest, before, rfl, hbefore, hk'⟩
      · exact .inl ⟨r :: runs, .cons hfails hruns⟩
      · exact .inr ⟨k :: firsts, k', rest, r :: before, rfl, .cons hfails hbefore, hk'⟩

end Attempts

variable {κ : Type} {n : Nat} {c : Contest Float n κ}

/-- The results of a list of candidates that are tried in order: the first success, or else the
first of the attempts with the least residual norm. -/
inductive Settles (c : Contest Float n κ) (candidates : List κ) : Solution Float n → Prop where
  | won {firsts rest : List κ} {k : κ} {before : List (Run Float n)} {r : Run Float n}
      (split : candidates = firsts ++ k :: rest) (failing : c.Failing firsts before)
      (run : ((c.solve k).run ()).result = .ok r) (success : r.success = true) :
      Settles c candidates
        (r.wrap c.owner (some c.problem) before.length (c.recordsOf (before ++ [r])) r.code)
  | lost {runs : List (Run Float n)} {i : Nat} {r : Run Float n}
      (failing : c.Failing candidates runs)
      (least : Selection.Least (fun r : Run Float n => c.norm.of r.resid) runs i r) :
      Settles c candidates (r.wrap c.owner (some c.problem) i (c.recordsOf runs) r.code)

/-- If all fail, the result is the first of the least attempts. -/
theorem returns_solveInOrder_lost {candidates : List κ} {runs : List (Run Float n)} {i : Nat}
    {r : Run Float n} (h : c.Failing candidates runs)
    (hl : Selection.Least (fun r : Run Float n => c.norm.of r.resid) runs i r) :
    (c.solveInOrder candidates).Returns []
      (r.wrap c.owner (some c.problem) i (c.recordsOf runs) r.code) (c.recordsOf runs) := by
  have hruns : runs ≠ [] := List.ne_nil_of_mem (List.mem_of_getElem? hl.place)
  have hne : candidates ++ [] ≠ [] := by
    rw [List.append_nil, ← List.length_pos_iff, h.length_eq]
    exact List.length_pos_iff.mpr hruns
  have hindexed : Indexed (runs.mapIdx Prod.mk) := by
    intro j f hj
    rw [List.getElem?_mapIdx] at hj
    obtain ⟨r, -, rfl⟩ := Option.map_eq_some_iff.mp hj
    rfl
  have hsnd : (runs.mapIdx Prod.mk).map Prod.snd = runs := by
    apply List.ext_getElem?
    simp
  obtain ⟨j, r', hj, hl'⟩ : ∃ j r',
      Selection.selectBest (fun r => c.norm.of r.resid) runs = .ok (j, r') ∧
      Selection.Least (fun r : Run Float n => c.norm.of r.resid) runs j r' :=
    Selection.selectBest_least hruns
  obtain ⟨rfl, rfl⟩ := hl.unique hl'
  apply Act.returns_of_wp
  rw [← List.append_nil candidates, wp_solveInOrder_failing h hne, course, Act.wp_pure,
    conclude_lost c hindexed, hsnd, hj]
  exact ⟨rfl, rfl⟩

/-- Where all fail, the result is that of the first of the least. -/
theorem lost_of_failing {candidates : List κ} {runs : List (Run Float n)} {sol : Solution Float n}
    (h : c.Failing candidates runs) (hr : ((c.solveInOrder candidates).run []).result = .ok sol) :
    ∃ i r, Selection.Least (fun r : Run Float n => c.norm.of r.resid) runs i r ∧
      sol = r.wrap c.owner (some c.problem) i (c.recordsOf runs) r.code := by
  cases h with
  | nil => cases hr
  | @cons k r ks rs hk hks =>
    obtain ⟨i, b, -, hl⟩ : ∃ i b, _ ∧
        Selection.Least (fun r : Run Float n => c.norm.of r.resid) (r :: rs) i b :=
      Selection.selectBest_least (List.cons_ne_nil r rs)
    have hlost := (returns_solveInOrder_lost (.cons hk hks) hl).1
    exact ⟨i, b, hl, Except.ok.inj (hr.symm.trans hlost)⟩

theorem settles_iff {candidates : List κ} {sol : Solution Float n} :
    c.Settles candidates sol ↔ ((c.solveInOrder candidates).run []).result = .ok sol := by
  constructor
  · intro h
    cases h with
    | won split failing run success =>
      subst split
      exact (returns_solveInOrder_won failing run success).1
    | lost failing least => exact (returns_solveInOrder_lost failing least).1
  · intro h
    rcases failing_or_first (c := c) candidates with ⟨runs, hruns⟩ |
      ⟨firsts, k, rest, before, rfl, hbefore, hk⟩
    · obtain ⟨i, r, hl, rfl⟩ := lost_of_failing hruns h
      exact .lost hruns hl
    · cases hr : ((c.solve k).run ()).result with
      | error e =>
        rw [solveInOrder_raises hbefore hr] at h
        cases h
      | ok r =>
        rw [(returns_solveInOrder_won hbefore hr (hk r hr)).1] at h
        rw [← Except.ok.inj h]
        exact .won rfl hbefore hr (hk r hr)

/-- Candidates that are tried in order raise what one of them does, if those before it fail. -/
theorem solveInOrder_raises_iff {candidates : List κ} (hne : candidates ≠ []) {e : Fault Float} :
    ((c.solveInOrder candidates).run []).result = .error e ↔
      ∃ firsts k rest, candidates = firsts ++ k :: rest ∧
        ((c.solve k).run ()).result = .error e ∧
        ∀ d ∈ firsts, ∃ r, ((c.solve d).run ()).result = .ok r ∧ r.success = false := by
  constructor
  · intro h
    rcases failing_or_first (c := c) candidates with ⟨runs, hruns⟩ |
      ⟨firsts, k, rest, before, rfl, hbefore, hk⟩
    · have hruns' : runs ≠ [] := by
        rw [← List.length_pos_iff, ← hruns.length_eq]
        exact List.length_pos_iff.mpr hne
      obtain ⟨i, r, -, hl⟩ : ∃ i r, _ ∧
          Selection.Least (fun r : Run Float n => c.norm.of r.resid) runs i r :=
        Selection.selectBest_least hruns'
      rw [(returns_solveInOrder_lost hruns hl).1] at h
      cases h
    · cases hr : ((c.solve k).run ()).result with
      | ok r =>
        rw [(returns_solveInOrder_won hbefore hr (hk r hr)).1] at h
        cases h
      | error e' =>
        rw [solveInOrder_raises hbefore hr] at h
        obtain rfl := Except.error.inj h
        refine ⟨firsts, k, rest, rfl, hr, fun d hd => ?_⟩
        obtain ⟨r, -, hr⟩ := forall₂_mem hbefore.flip hd
        exact ⟨r, hr⟩
  · rintro ⟨firsts, k, rest, rfl, hr, hfail⟩
    obtain ⟨before, hbefore⟩ := failing_of_forall hfail
    exact solveInOrder_raises hbefore hr

section Behind

variable {firsts rest : List κ} {before runs : List (Run Float n)} {A B : Solution Float n}

/-- Candidates that fail in front of others do not change how a solve with these ends, and their
attempts come in front. -/
theorem Settles.behind (hf : c.Failing firsts before) (hA : c.Settles (firsts ++ rest) A)
    (hB : c.Settles rest B) : A.success = B.success ∧
      A.attempts = c.recordsOf before ++ B.attempts.map (AttemptRecord.behind before.length) ∧
      (A.success = true → A.Behind before.length B) := by
  have hresult := settles_iff.mp hA
  cases hB with
  | @won firsts' rest k before' r split failing run success =>
    subst split
    rw [← List.append_assoc] at hresult
    rw [(returns_solveInOrder_won (hf.append failing) run success).1] at hresult
    obtain rfl := Except.ok.inj hresult
    refine ⟨rfl, ?_, fun _ => ⟨?_, rfl, rfl, rfl⟩⟩
    · simp only [Run.wrap, List.append_assoc, recordsOf_append]
    · simp [Run.wrap, Nat.add_comm]
  | @lost runs i r failing least =>
    obtain ⟨j, r', hl, rfl⟩ := lost_of_failing (hf.append failing) hresult
    have hr := failing.success r (List.mem_of_getElem? least.place)
    have hr' := (hf.append failing).success r' (List.mem_of_getElem? hl.place)
    refine ⟨hr'.trans hr.symm, c.recordsOf_append before runs, fun hs => ?_⟩
    exact absurd (hs.symm.trans hr') Bool.noConfusion

/-- If all fail, the result is the best attempt of all; unless that is one in front, it is the best
attempt of the others. -/
theorem Settles.lost_behind (hf : c.Failing firsts before) (hr : c.Failing rest runs)
    (hA : c.Settles (firsts ++ rest) A) (hB : c.Settles rest B) :
    ∃ i r, Selection.Least (fun r : Run Float n => c.norm.of r.resid) (before ++ runs) i r ∧
      A = r.wrap c.owner (some c.problem) i (c.recordsOf (before ++ runs)) r.code ∧
      (before.length ≤ i → A.Behind before.length B) := by
  obtain ⟨i, r, hl, rfl⟩ := lost_of_failing (hf.append hr) (settles_iff.mp hA)
  obtain ⟨j, r', hl', rfl⟩ := lost_of_failing hr (settles_iff.mp hB)
  refine ⟨i, r, hl, rfl, fun hi => ?_⟩
  obtain ⟨rfl, rfl⟩ := hl'.unique (hl.of_append hi)
  exact ⟨congrArg some (Nat.sub_add_cancel hi).symm, rfl, rfl, rfl⟩

end Behind

end Fallback.Contest

section Fast

variable {n : Nat} {configuration : Configuration} {call : Call} {problem : Problem Float n}
  {A B : Solution Float n} {r₀ r₁ : Run Float n}

/-- The fast preset solves at once with shortcuts that may fail, and with kept candidates without
them. If both shortcuts fail, the one solve succeeds exactly where the other does, with the same
candidate, which is two places further on there. If all six candidates fail, the result of the
first is the best attempt of the six, and if that is none of a shortcut, the other has it too. -/
theorem shortcuts_agree_with_kept [LinearRoutines Float] (hplace : problem.system.isInPlace = false)
    (hA : (((⟨.fast, configuration⟩ : Polyalgorithm).solve call problem).run ()).result = .ok A)
    (hB : (((⟨.fast, configuration⟩ : Polyalgorithm).solveWarm call problem).run ()).result =
      .ok B)
    (hklement : (((Candidate.klement Candidate.defaultLimit configuration).solve call
      problem).run ()).result = .ok r₀) (h₀ : r₀.success = false)
    (hbroyden : (((Candidate.broyden Candidate.defaultLimit configuration).solve call
      problem).run ()).result = .ok r₁) (h₁ : r₁.success = false) :
    A.success = B.success ∧
    A.attempts = [r₀.record call.normOrDefault 0, r₁.record call.normOrDefault 1] ++
      B.attempts.map (AttemptRecord.behind 2) ∧
    (A.success = true → A.Behind 2 B) ∧
    ∀ runs : List (Run Float n),
      List.Forall₂ (fun (c : Candidate) r => ((c.solve call problem).run ()).result = .ok r ∧
        r.success = false) (Preset.fastCandidates configuration) runs →
      ∃ (i : Nat) (r : Run Float n), Selection.Least
          (fun r : Run Float n => call.normOrDefault.of r.resid) (r₀ :: r₁ :: runs) i r ∧
        A.candidate = some i ∧ A.u = r.u ∧ A.resid = r.resid ∧ A.stats = r.stats ∧
        (2 ≤ i → A.Behind 2 B) := by
  let c := fallback (⟨.fast, configuration⟩ : Polyalgorithm).solver problem call.normOrDefault call
  have hshortcuts : c.Failing (Preset.shortcuts configuration) [r₀, r₁] :=
    .cons ⟨hklement, h₀⟩ (.cons ⟨hbroyden, h₁⟩ .nil)
  have hA' : c.Settles (Preset.shortcuts configuration ++ Preset.fastCandidates configuration)
      A := by
    rw [Polyalgorithm.solve, hplace] at hA
    rw [Polyalgorithm.solveList, hplace] at hA
    exact Fallback.Contest.settles_iff.mpr hA
  obtain ⟨B', hB', rfl⟩ : ∃ B', c.Settles (Preset.fastCandidates configuration) B' ∧
      B = B'.kept := by
    obtain ⟨w, hw, hsolved⟩ := Act.result_bind_within hB
    rw [(Warm.fresh_ofCandidates hw).solve_result] at hsolved
    obtain ⟨B', hB', rfl⟩ := except_map_ok hsolved
    exact ⟨B', Fallback.Contest.settles_iff.mpr hB', rfl⟩
  obtain ⟨hsuccess, hattempts, hbehind⟩ := hA'.behind hshortcuts hB'
  refine ⟨?_, ?_, fun hs => (hbehind hs).kept, fun runs hruns => ?_⟩
  · rw [Solution.kept_success, hsuccess]
  · rw [Solution.kept_attempts, hattempts]
    rfl
  · obtain ⟨i, r, hl, rfl, hi⟩ := Fallback.Contest.Settles.lost_behind hshortcuts hruns hA' hB'
    exact ⟨i, r, hl, rfl, rfl, rfl, rfl, fun h => (hi h).kept⟩

end Fast

/-- A call that is content with one step. -/
def Call.single : Call := { Call.plain with budget := .int 1 }

/-- A system that is solved by one step of Newton's method. -/
def line : Problem Float 1 :=
  ⟨.outOfPlace (fun u _ => .ok (u.map fun x => 2.0 * x - 2.0))
    (some fun _ _ => .ok (.replicate 1 (.replicate 1 2.0))), .replicate 1 0.0, .absent⟩

/-- In one step the shortcuts fail on either system. Newton's method solves the line, and comes
nearest to the root of the parabola. -/
theorem shortcuts_agree_with_kept_single :
    (∃ A B : Solution Float 1,
      (((⟨.fast, Settings.initial⟩ : Polyalgorithm).solve .single line).run ()).result = .ok A ∧
      (((⟨.fast, Settings.initial⟩ : Polyalgorithm).solveWarm .single line).run ()).result =
        .ok B ∧
      (A.success, A.candidate) = (true, some 2) ∧ A.Behind 2 B) ∧
    ∃ (A B : Solution Float 1) (runs : List (Run Float 1)) (r : Run Float 1),
      (((⟨.fast, Settings.initial⟩ : Polyalgorithm).solve .single parabola).run ()).result =
        .ok A ∧
      (((⟨.fast, Settings.initial⟩ : Polyalgorithm).solveWarm .single parabola).run ()).result =
        .ok B ∧
      (A.success, A.candidate) = (false, some 2) ∧ runs.length = 6 ∧
      Selection.Least (fun r : Run Float 1 => Norm.l2.of r.resid) runs 2 r ∧ A.u = r.u ∧
      A.Behind 2 B := by
  constructor
  · obtain ⟨A, hA, hsA⟩ := except_shown (f := fun A : Solution Float 1 => (A.success, A.candidate))
      (x := (((⟨.fast, Settings.initial⟩ : Polyalgorithm).solve .single line).run ()).result)
      (c := (true, some 2)) (by decide +kernel)
    obtain ⟨B, hB, -⟩ := except_shown (f := Solution.success)
      (x := (((⟨.fast, Settings.initial⟩ : Polyalgorithm).solveWarm .single line).run ()).result)
      (c := true) (by decide +kernel)
    obtain ⟨r₀, hklement, h₀⟩ := except_shown (f := Run.success)
      (x := (((Candidate.klement Candidate.defaultLimit Settings.initial).solve .single
        line).run ()).result) (c := false) (by decide +kernel)
    obtain ⟨r₁, hbroyden, h₁⟩ := except_shown (f := Run.success)
      (x := (((Candidate.broyden Candidate.defaultLimit Settings.initial).solve .single
        line).run ()).result) (c := false) (by decide +kernel)
    obtain ⟨-, -, hbehind, -⟩ := shortcuts_agree_with_kept rfl hA hB hklement h₀ hbroyden h₁
    exact ⟨A, B, hA, hB, hsA, hbehind (Prod.mk.inj hsA).1⟩
  · obtain ⟨A, hA, hsA⟩ := except_shown (f := fun A : Solution Float 1 => (A.success, A.candidate))
      (x := (((⟨.fast, Settings.initial⟩ : Polyalgorithm).solve .single parabola).run ()).result)
      (c := (false, some 2)) (by decide +kernel)
    obtain ⟨B, hB, -⟩ := except_shown (f := Solution.success)
      (x := (((⟨.fast, Settings.initial⟩ : Polyalgorithm).solveWarm .single parabola).run
        ()).result) (c := false) (by decide +kernel)
    obtain ⟨runs, hruns⟩ : ∃ runs, (fallback ⟨"six", "six"⟩ parabola .l2 .single).Failing
        (Preset.shortcuts Settings.initial ++ Preset.fastCandidates Settings.initial) runs :=
      Fallback.Contest.failing_of_shown (by decide +kernel)
    obtain ⟨r₀, _, ⟨hklement, h₀⟩, hrest, rfl⟩ := List.forall₂_cons_left_iff.mp hruns
    obtain ⟨r₁, fast, ⟨hbroyden, h₁⟩, hfast, rfl⟩ := List.forall₂_cons_left_iff.mp hrest
    obtain ⟨-, -, -, hall⟩ := shortcuts_agree_with_kept rfl hA hB hklement h₀ hbroyden h₁
    obtain ⟨i, r, hl, hi, hu, -, -, hbehind⟩ := hall fast hfast
    obtain rfl : 2 = i := Option.some.inj ((Prod.mk.inj hsA).2.symm.trans hi)
    exact ⟨A, B, _, r, hA, hB, hsA, hruns.length_eq.symm, hl, hu,
      hbehind (Nat.le_refl 2)⟩

end Rootfinder
