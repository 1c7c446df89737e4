import Rootfinder.Proofs.Confined
import Rootfinder.Proofs.Endings
import Rootfinder.Proofs.Shortcuts

namespace Rootfinder

variable {α β σ : Type} {n : Nat}

namespace Iteration

variable [Scalar α] {m : Method α n σ} {it x : Iteration α n σ} {k : Nat} {e : Fault α}

omit [Scalar α] in
theorem wp_lap_advance {post : Unit → Iteration α n σ → Prop}
    {broken : Fault α → Iteration α n σ → Prop} : (lap m).wp post broken it ↔
      m.advance.wp (fun _ x => post () { x with stats := x.stats.countStep }) broken it := by
  rw [lap, Act.wp_bind]
  rfl

variable (hm : ∀ P k, m.advance.Keeps (At P k))

include hm

theorem Laps.problem (h : Laps m k it x) : x.problem = it.problem := by
  induction h with
  | none => rfl
  | more _ hl _ ih => exact ih.trans (hl.wp_iff.mp (wp_lap hm)).1

/-- A solve raises what a step of its method does at a state that the run comes to. -/
theorem solve_raises_iff : ((solve m).run it).result = .error e ↔
    ∃ k x, Laps m k it x ∧ (x.tested m).terminated = false ∧
      (m.advance.run x).result = .error e := by
  constructor
  · induction it using lap_induction hm with
    | ends it ht =>
      intro h
      rw [Act.raises_iff, wp_solve hm, if_pos ht] at h
      exact h.elim
    | goes it ho ih =>
      intro h
      rw [Act.raises_iff, wp_solve hm, if_neg (by simp [ho])] at h
      cases hr : ((lap m).run it).result with
      | ok u =>
        have hl : (lap m).Returns it () ((lap m).run it).state := ⟨hr, rfl⟩
        rw [hl.wp_iff, ← Act.raises_iff] at h
        obtain ⟨k, x, hx, hrest⟩ := ih _ hl h
        exact ⟨k + 1, x, .more ho hl hx, hrest⟩
      | error e' =>
        obtain rfl := h.of_error hr
        rw [Act.raises_iff, wp_lap_advance, ← Act.raises_iff] at hr
        exact ⟨0, it, .none it, ho, hr⟩
  · rintro ⟨k, x, hx, ho, h⟩
    rw [Act.raises_iff]
    induction hx with
    | none it =>
      rw [wp_solve hm, if_neg (by simp [ho]), wp_lap_advance]
      simp only [Act.wp, h]
    | more ho' hl _ ih =>
      rw [wp_solve hm, if_neg (by simp [ho']), hl.wp_iff]
      exact ih ho h

end Iteration

open Iteration

namespace Session

variable [Scalar α] {b s : Session α n} {e : Fault α}

/-- A session that another passes on its way: it is driven there and takes a step from it. -/
structure Passes (b s : Session α n) : Prop where
  course : b.OnCourse s
  goesOn : (s.iteration.tested s.method).terminated = false

/-- The step that comes next trips. -/
def Trips (s : Session α n) (e : Fault α) : Prop := s.algorithm.Trips s.iteration e

theorem passes_iff : b.Passes s ↔ ∃ k x, Laps b.method k b.iteration x ∧
    (x.tested b.method).terminated = false ∧ s = { b with iteration := x } := by
  constructor
  · rintro ⟨⟨it, ⟨k, x, hx, ht⟩, rfl⟩, ho⟩
    have ho' : (x.tested b.method).terminated = false := ht ▸ ho
    obtain rfl : it = x := (tested_eq_self ho).2.2.symm.trans (ht.trans (tested_eq_self ho').2.2)
    exact ⟨k, it, hx, ho, rfl⟩
  · rintro ⟨k, x, hx, ho, rfl⟩
    exact ⟨⟨x, ⟨k, x, hx, rfl⟩, rfl⟩, ho⟩

/-- A solve raises what a step does on its way. -/
theorem outcome_raises_iff : b.outcome = .error e ↔
    ∃ s, b.Passes s ∧ (s.method.advance.run s.iteration).result = .error e := by
  refine Iff.trans (solve_raises_iff b.method_advance_at) ⟨?_, ?_⟩
  · rintro ⟨k, x, hx, ho, h⟩
    exact ⟨{ b with iteration := x }, passes_iff.mpr ⟨k, x, hx, ho, rfl⟩, h⟩
  · rintro ⟨s, hs, h⟩
    obtain ⟨k, x, hx, ho, rfl⟩ := passes_iff.mp hs
    exact ⟨k, x, hx, ho, h⟩

theorem Passes.problem (h : b.Passes s) : s.iteration.problem = b.iteration.problem := by
  obtain ⟨k, x, hx, -, rfl⟩ := passes_iff.mp h
  exact hx.problem b.method_advance_at

theorem Passes.algorithm (h : b.Passes s) : s.algorithm = b.algorithm := by
  obtain ⟨k, x, -, -, rfl⟩ := passes_iff.mp h
  rfl

/-- Where the functions of the system return, a solve raises only if a step trips on its way, or
for a setting that cannot be used. -/
theorem outcome_raises (ha : b.algorithm.BuiltIn) (hplain : b.algorithm.Plain)
    (hq : b.iteration.problem.Quiet) (h : b.outcome = .error e) :
    ∃ s, b.Passes s ∧ (s.Trips e ∨ b.algorithm.Unusable b.iteration.problem.system e) := by
  obtain ⟨s, hs, hr⟩ := outcome_raises_iff.mp h
  have hq' : s.iteration.problem.Quiet := hs.problem ▸ hq
  refine ⟨s, hs, ?_⟩
  refine (Algorithm.advance_raises (hs.algorithm ▸ ha) (hs.algorithm ▸ hplain) hq' hr).imp_right
    fun hunusable => ?_
  rwa [hs.problem, hs.algorithm] at hunusable

theorem outcome_of_trips (h : b.Passes s) (ht : s.Trips e) : b.outcome = .error e :=
  outcome_raises_iff.mpr ⟨s, h, Algorithm.Trips.raises ht⟩

end Session

section Calls

variable {call : Call} {o : Options Float} {problem : Problem Float n} {c : Candidate}
  {e : Fault Float}

theorem Call.options_further (h : call.options = .ok o) : call.further = [] := by
  unfold options at h
  simp only at h
  split at h
  · cases h
  · assumption

namespace Candidate

variable [LinearRoutines Float]

/-- A candidate that supports the calling convention is accepted under options that are. -/
theorem init_returns (hq : problem.Quiet) (hextra : call.extra = 0) (ho : call.options = .ok o)
    (hs : c.supports problem.system.isInPlace = true) :
    ∃ b, ((c.init call problem).run ()).result = .ok b := by
  have hclash : call.clash? = none := by rw [Call.clash?, Call.options_further ho, List.find?_nil]
  have hinit : c.init call problem = Session.start c.algorithm o problem := by
    simp only [init, hclash, hextra, hs, ho, Nat.lt_irrefl, if_false, Bool.not_true,
      Bool.false_eq_true]
    rfl
  have hw : (c.init call problem).wp (fun _ _ => True) (fun _ _ => False) () := by
    rw [hinit, Session.wp_start, Iteration.start, Act.wp_within, Act.wp_bind]
    exact (Iteration.confined_refresh (E := fun _ => False) hq (Iteration.blank problem) rfl).mono
      (fun _ _ _ => trivial) fun _ _ h => h.1
  obtain ⟨b, _, hb, -⟩ := hw.returns
  exact ⟨b, hb.1⟩

theorem plain_algorithm (hp : c.configuration.preconditioning = none) : c.algorithm.Plain := by
  have hl : c.configuration.linearization.preconditioner = none := by
    rw [Configuration.linearization, hp]
    rfl
  cases c with
  | newton search configuration => exact hl
  | trustRegion scheme rule configuration => exact hl
  | _ => trivial

/-- A candidate that was set to work raises only if a step trips, or for a setting. -/
theorem Started.raises {b : Session Float n} (h : Started call problem c b) (hc : c.BuiltIn)
    (hp : c.configuration.preconditioning = none) (hq : problem.Quiet)
    (he : ((c.solve call problem).run ()).result = .error e) :
    ∃ s, b.Passes s ∧ (s.Trips e ∨ c.algorithm.Unusable problem.system e) := by
  rw [h.solve_result] at he
  have hproblem : b.iteration.problem = problem := h.problem
  have hraises := b.outcome_raises (h.algorithm ▸ hc) (h.algorithm ▸ plain_algorithm hp)
    (hproblem ▸ hq) he
  rwa [hproblem, h.algorithm] at hraises

/-- Of candidates that are tried in order, one raises, and those before it fail. -/
def Breaks (call : Call) (problem : Problem Float n) (cs : List Candidate) (e : Fault Float) :
    Prop :=
  ∃ firsts c rest, cs = firsts ++ c :: rest ∧ ((c.solve call problem).run ()).result = .error e ∧
    ∀ d ∈ firsts, ∃ r, ((d.solve call problem).run ()).result = .ok r ∧ r.success = false

end Candidate

theorem Warm.ofCandidates_returns [LinearRoutines Float] {owner : Solver} {cs : List Candidate}
    (hne : cs ≠ []) (h : ∀ c ∈ cs, ∃ b, ((c.init call problem).run ()).result = .ok b) :
    ∃ w, ((Warm.ofCandidates owner cs call problem).run ()).result = .ok w := by
  have hsessions : (cs.mapM fun c : Candidate => c.init call problem).wp
      (fun ss _ => ss.length = cs.length) (fun _ _ => False) () := by
    clear hne
    induction cs with
    | nil => rfl
    | cons c cs ih =>
      obtain ⟨⟨b, hb⟩, hcs⟩ := List.forall_mem_cons.mp h
      have hinit : (c.init call problem).Returns () b () := ⟨hb, rfl⟩
      rw [List.mapM_cons, Act.wp_bind, hinit.wp_iff, Act.wp_bind]
      exact (ih hcs).mono (fun ss _ hss => congrArg (· + 1) hss) fun _ _ h => h
  have hw : (Warm.ofCandidates owner cs call problem).wp (fun _ _ => True) (fun _ _ => False)
      () := by
    rw [ofCandidates, Act.wp_bind]
    refine hsessions.mono (fun ss _ hss => ?_) fun _ _ h => h
    have hss' : ss.isEmpty = false := by
      rw [List.isEmpty_eq_false_iff, ← List.length_pos_iff, hss]
      exact List.length_pos_iff.mpr hne
    rw [ofSessions, hss', if_neg Bool.false_ne_true]
    trivial
  obtain ⟨w, _, hw, -⟩ := hw.returns
  exact ⟨w, hw.1⟩

end Calls

/-- The initial settings of a line search can be used. -/
theorem Backtracking.usable_initial {e : Fault Float} :
    ¬ (Backtracking.params Settings.initial).Unusable e := by
  intro h
  cases h with
  | cap h => cases h
  | lengths h =>
    have hdescends : (Backtracking.params Settings.initial).descends 20 1.0 = true := by
      decide +kernel
    have hpatience : 20 ≤ LineSearch.patience := by decide
    rw [LineSearch.Params.descends_mono hpatience hdescends] at h
    cases h

/-- The customary rules of the trust regions can be used. -/
theorem RadiusRule.usable_ofScheme (scheme : TrustRegion.Scheme) {e : Fault Float} :
    ¬ (RadiusRule.ofScheme scheme).params.Unusable e := by
  intro h
  cases h with
  | threshold h =>
    cases scheme <;> simp [TrustRegion.Params.thresholds, params, ofScheme, initial,
      TrustRegion.Threshold.ofValue] at h
  | factor h => cases scheme <;> cases h

/-- A candidate of a preset: it solves systems of a calling convention under a configuration, and
of its settings only the step of differences can be of no use. -/
structure Candidate.Customary [LinearRoutines Float] (configuration : Configuration)
    (inPlace : Bool) (c : Candidate) : Prop where
  builtIn : c.BuiltIn
  shares : c.configuration = configuration
  supports : c.supports inPlace = true
  usable : ∀ {n : Nat} (S : System Float n) e, c.algorithm.Unusable S e →
    configuration.differentiation.differencing.Unusable S e

namespace Preset

variable (configuration : Configuration) (inPlace : Bool)

theorem candidates_ne_nil (persistent : Bool) (preset : Preset) :
    preset.candidates configuration inPlace persistent ≠ [] := by
  cases preset <;> cases persistent <;>
    simp [candidates, robustCandidates, fastCandidates]

variable [LinearRoutines Float]

theorem customary_newton : (newton configuration).Customary configuration inPlace where
  builtIn := trivial
  shares := rfl
  supports := rfl
  usable _ _ h := h.resolve_right fun ⟨_, hnone, _⟩ => nomatch hnone

theorem customary_damped : (damped configuration).Customary configuration inPlace where
  builtIn := trivial
  shares := rfl
  supports := rfl
  usable _ _ h := h.resolve_right fun ⟨_, hsome, hunusable⟩ => by
    obtain rfl := Option.some.inj hsome
    exact Backtracking.usable_initial hunusable

theorem customary_ofScheme (scheme : TrustRegion.Scheme) :
    (Candidate.customary scheme configuration).Customary configuration inPlace where
  builtIn := trivial
  shares := rfl
  supports := rfl
  usable _ _ h := h.resolve_right (RadiusRule.usable_ofScheme scheme)

theorem customary_shortcuts : ∀ c ∈ shortcuts configuration, c.supports inPlace = true →
    c.Customary configuration inPlace := by
  intro c hc hs
  simp only [shortcuts, List.mem_cons, List.not_mem_nil, or_false] at hc
  rcases hc with rfl | rfl <;> exact ⟨trivial, rfl, hs, fun S e h => h.elim⟩

theorem customary_fast : ∀ c ∈ fastCandidates configuration,
    c.Customary configuration inPlace := by
  intro c hc
  simp only [fastCandidates, List.mem_cons, List.not_mem_nil, or_false] at hc
  rcases hc with rfl | rfl | rfl | rfl
  · exact customary_newton configuration inPlace
  · exact customary_damped configuration inPlace
  · exact customary_ofScheme configuration inPlace .simple
  · exact customary_ofScheme configuration inPlace .bastin

theorem customary_robust : ∀ c ∈ robustCandidates configuration,
    c.Customary configuration inPlace := by
  intro c hc
  simp only [robustCandidates, List.mem_cons, List.not_mem_nil, or_false] at hc
  rcases hc with rfl | rfl | rfl | rfl | rfl
  · exact customary_ofScheme configuration inPlace .simple
  · exact customary_ofScheme configuration inPlace .bastin
  · exact customary_damped configuration inPlace
  · exact customary_ofScheme configuration inPlace .nlsolve
  · exact customary_ofScheme configuration inPlace .fan

theorem customary_candidates (persistent : Bool) (preset : Preset) :
    ∀ c ∈ preset.candidates configuration inPlace persistent,
      c.Customary configuration inPlace := by
  intro c hc
  cases preset with
  | robust => exact customary_robust configuration inPlace c hc
  | fast =>
    cases persistent with
    | true => exact customary_fast configuration inPlace c hc
    | false =>
      rcases List.mem_append.mp hc with hc | hc
      · obtain ⟨hc, hs⟩ := List.mem_filter.mp hc
        exact customary_shortcuts configuration inPlace c hc hs
      · exact customary_fast configuration inPlace c hc

end Preset

namespace Polyalgorithm

variable {call : Call} {o : Options Float} {problem : Problem Float n} (p : Polyalgorithm)
  {e : Fault Float}

variable [LinearRoutines Float]

theorem init_returns (hq : problem.Quiet) (hextra : call.extra = 0) (ho : call.options = .ok o) :
    ∃ w, ((p.init call problem).run ()).result = .ok w := by
  refine Warm.ofCandidates_returns
    (Preset.candidates_ne_nil p.configuration problem.system.isInPlace true p.preset)
    fun c hc => ?_
  have hcustomary := Preset.customary_candidates p.configuration problem.system.isInPlace true
    p.preset c hc
  exact Candidate.init_returns hq hextra ho hcustomary.supports

theorem solveList_raises_iff : ((p.solveList call problem).run ()).result = .error e ↔
    Candidate.Breaks call problem (p.candidates problem.system.isInPlace false) e :=
  Fallback.Contest.solveInOrder_raises_iff (c := p.contest call problem)
    (Preset.candidates_ne_nil p.configuration problem.system.isInPlace false p.preset)

theorem solveWarm_raises_iff (hq : problem.Quiet) (hextra : call.extra = 0)
    (ho : call.options = .ok o) : ((p.solveWarm call problem).run ()).result = .error e ↔
      Candidate.Breaks call problem (p.candidates problem.system.isInPlace true) e := by
  obtain ⟨w, hw⟩ := p.init_returns hq hextra ho
  have hinit : (p.init call problem).Returns () w () := ⟨hw, rfl⟩
  have hresult : ((p.solveWarm call problem).run ()).result = (Warm.solve.run w).result :=
    hinit.bind_result _
  have hmap : ∀ r : Except (Fault Float) (Solution Float n),
      r.map Solution.kept = .error e ↔ r = .error e := by
    intro r
    cases r <;> simp [Except.map]
  rw [hresult, (Warm.fresh_ofCandidates hw).solve_result, hmap]
  exact Fallback.Contest.solveInOrder_raises_iff
    (Preset.candidates_ne_nil p.configuration problem.system.isInPlace true p.preset)

theorem solve_raises_iff (hq : problem.Quiet) (hextra : call.extra = 0)
    (ho : call.options = .ok o) : ((p.solve call problem).run ()).result = .error e ↔
      Candidate.Breaks call problem (p.candidates problem.system.isInPlace false) e := by
  obtain ⟨preset, configuration⟩ := p
  cases preset with
  | robust => exact solveWarm_raises_iff _ hq hextra ho
  | fast =>
    rw [solve_fast]
    exact solveList_raises_iff _

end Polyalgorithm

/-- When solves raise, of systems whose functions return at every point. A candidate without a
preconditioner is accepted, and its solve raises exactly what a step does that trips on its way,
which is not caught, or else what a setting calls for that cannot be used. A polyalgorithm raises
exactly what the first of its candidates does that does not fail, if that one raises; of their
settings only the step of differences can be of no use. -/
theorem solves_raise_by_accident [LinearRoutines Float] {problem : Problem Float n}
    (hq : problem.Quiet) {call : Call} (hextra : call.extra = 0) {o : Options Float}
    (ho : call.options = .ok o) :
    (∀ c : Candidate, c.BuiltIn → c.configuration.preconditioning = none →
      c.supports problem.system.isInPlace = true →
      ∃ b, ((c.init call problem).run ()).result = .ok b ∧
        (∀ e, ((c.solve call problem).run ()).result = .error e →
          ∃ s, b.Passes s ∧ (s.Trips e ∨ c.algorithm.Unusable problem.system e)) ∧
        ∀ s e, b.Passes s → s.Trips e → ((c.solve call problem).run ()).result = .error e) ∧
    ∀ p : Polyalgorithm, (∃ w, ((p.init call problem).run ()).result = .ok w) ∧
      (∀ e, ((p.solve call problem).run ()).result = .error e ↔
        Candidate.Breaks call problem (p.candidates problem.system.isInPlace false) e) ∧
      (∀ e, ((p.solveWarm call problem).run ()).result = .error e ↔
        Candidate.Breaks call problem (p.candidates problem.system.isInPlace true) e) ∧
      ∀ persistent, ∀ c ∈ p.candidates problem.system.isInPlace persistent,
        c.Customary p.configuration problem.system.isInPlace := by
  refine ⟨fun c hc hp hs => ?_, fun p => ⟨p.init_returns hq hextra ho, fun e => ?_, fun e => ?_,
    fun persistent => Preset.customary_candidates _ _ persistent p.preset⟩⟩
  · obtain ⟨b, hb⟩ := Candidate.init_returns hq hextra ho hs
    have hstarted := Candidate.started hb
    refine ⟨b, hb, fun e he => hstarted.raises hc hp hq he, fun s e hpasses htrips => ?_⟩
    rw [hstarted.solve_result]
    exact Session.outcome_of_trips hpasses htrips
  · exact p.solve_raises_iff hq hextra ho
  · exact p.solveWarm_raises_iff hq hextra ho

/-- A system whose differences at the starting point reach beyond its domain. -/
def edge : Problem Float 1 :=
  ⟨.outOfPlace (fun u _ => .ok (u.map fun x => Float.sqrt (1.0 - x) - 0.5)) none,
    .replicate 1 1.0, .absent⟩

theorem quiet_edge : edge.Quiet := ⟨fun _ => rfl, nofun⟩

/-- A configuration of linear solves by least squares. -/
def leastSquares : Configuration := { Configuration.initial with linear := some .lstsq }

/-- At the edge, least squares trip over the first Jacobian, and elimination does not. -/
theorem solves_raise_by_accident_edge :
    (∃ b s : Session Float 1,
      (((Candidate.newton none leastSquares).init .plain edge).run ()).result = .ok b ∧
      b.Passes s ∧ s.Trips .nonFiniteSystem ∧
      (((Candidate.newton none leastSquares).solve .plain edge).run ()).result =
        .error .nonFiniteSystem) ∧
    ∃ r, (((Candidate.newton none .initial).solve .plain edge).run ()).result = .ok r := by
  obtain ⟨o, ho, -⟩ := except_shown (f := fun o : Options Float => o.budget)
    (x := Call.plain.options) (c := 1000) (by decide +kernel)
  have hevery := (solves_raise_by_accident quiet_edge rfl ho).1
  constructor
  · obtain ⟨b, hb, hraises, -⟩ := hevery (.newton none leastSquares) trivial rfl rfl
    have hr : (((Candidate.newton none leastSquares).solve .plain edge).run ()).result =
        .error .nonFiniteSystem := by
      have hshown : (match (((Candidate.newton none leastSquares).solve .plain edge).run
          ()).result with
        | .error .nonFiniteSystem => true
        | _ => false) = true := by decide +kernel
      split at hshown
      · assumption
      · cases hshown
    obtain ⟨s, hs, htrips | ⟨-, hstep⟩ | ⟨prm, hnone, -⟩⟩ := hraises _ hr
    · exact ⟨b, s, hb, hs, htrips, hr⟩
    · cases hstep
    · cases hnone
  · obtain ⟨b, hb, hraises, -⟩ := hevery (.newton none .initial) trivial rfl rfl
    cases hr : (((Candidate.newton none .initial).solve .plain edge).run ()).result with
    | ok r => exact ⟨r, rfl⟩
    | error e =>
      obtain ⟨⟨a, o, it⟩, hs, htrips | ⟨-, hstep⟩ | ⟨prm, hnone, -⟩⟩ := hraises e hr
      · obtain rfl : a = Algorithm.newton none Configuration.initial.linearization :=
          hs.algorithm.trans (Candidate.started hb).algorithm
        obtain ⟨-, J, k, -, hlstsq, -⟩ := htrips
        cases hlstsq
      · cases hstep
      · cases hnone

/-- A linear system of very different scales. The gradient of its model is a difference of two
infinities, and its Newton step is longer than a radius whose square is too large. -/
def steep : Problem Float 2 :=
  ⟨.outOfPlace (fun u _ => .ok #v[1e160 * u[0] + 1e150, 1e160 * u[0] + 1e-50 * u[1] - 3e150])
    (some fun _ _ => .ok #v[#v[1e160, 0.0], #v[1e160, 1e-50]]), #v[0.0, 1e200], .absent⟩

theorem quiet_steep : steep.Quiet := ⟨fun _ => rfl, fun j hj _ => by cases hj; rfl⟩

/-- Systems whose functions return everywhere, on which a candidate and both presets raise. -/
theorem quiet_systems_raise : edge.Quiet ∧ steep.Quiet ∧
    raisedKind? (((Candidate.newton none leastSquares).solve .plain edge).run ()).result =
      some .value ∧
    raisedKind? (((⟨.fast, leastSquares⟩ : Polyalgorithm).solve .plain edge).run ()).result =
      some .value ∧
    raisedKind? (((⟨.robust, .initial⟩ : Polyalgorithm).solve .plain steep).run ()).result =
      some .overflow := by
  refine ⟨quiet_edge, quiet_steep, ?_, ?_, ?_⟩
  · decide +kernel
  · decide +kernel
  · decide +kernel

end Rootfinder
