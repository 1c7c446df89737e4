import Rootfinder.Proofs.Costs
import Rootfinder.Proofs.Runs
import Rootfinder.Proofs.TrustRegionSteps

namespace Rootfinder.TrustRegion

open Iteration

variable {α : Type} [Scalar α] {n : ℕ} {scheme : Scheme} {prm : Params α} {l : Linearization α}
  {o : Options α} {y z x : Iteration α n (Memory α n)} {J : Mat α n n} {s r : Vec α n}

section Work

variable (scheme prm l) in
/-- What is counted for a step, and the Jacobian that it leaves behind. -/
inductive Costs (y x : Iteration α n (Memory α n)) : Prop where
  | strays {J : Mat α n n} {s : Vec α n} {z : Iteration α n (Memory α n)}
    (hJ : (jacobian l).Returns y J z) (hf : Finds l y J s) (hs : s.allFinite = false)
    (hleft : x.memory.jacobian = some J)
    (hwork : x.stats = z.stats.countLinear (l.solver.factors J))
  | rejects {J : Mat α n n} {s r : Vec α n} {z : Iteration α n (Memory α n)} {shrinks : Bool}
    (hJ : (jacobian l).Returns y J z) (ht : Tries l y J s r)
    (hj : Judges scheme prm (reductionRatio J y.fu s r) shrinks false)
    (hleft : x.memory.jacobian = some J)
    (hwork : x.stats = (z.stats.countLinear (l.solver.factors J)).countResidual)
  | accepts {J : Mat α n n} {s r : Vec α n} {z : Iteration α n (Memory α n)} {shrinks : Bool}
    (hJ : (jacobian l).Returns y J z) (ht : Tries l y J s r)
    (hj : Judges scheme prm (reductionRatio J y.fu s r) shrinks true) (hscheme : scheme ≠ .bastin)
    (hleft : x.memory.jacobian = none)
    (hwork : x.stats = (z.stats.countLinear (l.solver.factors J)).countResidual)
  | rebuilds {J K : Mat α n n} {s r : Vec α n} {z : Iteration α n (Memory α n)} {shrinks : Bool}
    (hJ : (jacobian l).Returns y J z) (ht : Tries l y J s r)
    (hj : Judges scheme prm (reductionRatio J y.fu s r) shrinks true) (hscheme : scheme = .bastin)
    (hleft : x.memory.jacobian = some K)
    (hwork : (Jacobian.dense y.problem l.differencing (y.u + s) r).Returns
      (z.stats.countLinear (l.solver.factors J)).countResidual K x.stats)

/-- Only the counters and the remembered Jacobian matter to the costs of a step. -/
theorem Costs.congr {x' : Iteration α n (Memory α n)} (h : Costs scheme prm l y x)
    (hs : x'.stats = x.stats) (hm : x'.memory.jacobian = x.memory.jacobian) :
    Costs scheme prm l y x' := by
  cases h with
  | strays hJ hf hinfinite hleft hwork =>
    exact .strays hJ hf hinfinite (hm.trans hleft) (hs.trans hwork)
  | rejects hJ ht hj hleft hwork => exact .rejects hJ ht hj (hm.trans hleft) (hs.trans hwork)
  | accepts hJ ht hj hscheme hleft hwork =>
    exact .accepts hJ ht hj hscheme (hm.trans hleft) (hs.trans hwork)
  | rebuilds hJ ht hj hscheme hleft hwork =>
    exact .rebuilds hJ ht hj hscheme (hm.trans hleft) (hs ▸ hwork)

/-- The Jacobian of a step is remembered, or it is built and remembered from then on. -/
theorem jacobian_cases (h : (jacobian l).Returns y J z) :
    y.memory.jacobian = some J ∧ z = y ∨
    y.memory.jacobian = none ∧ ∃ st,
      (Jacobian.dense y.problem l.differencing y.u y.fu).Returns y.stats J st ∧
      z = { y with stats := st, memory := { y.memory with jacobian := some J } } := by
  have hw : (jacobian l).wp (fun J z => y.memory.jacobian = some J ∧ z = y ∨
      y.memory.jacobian = none ∧ ∃ st,
        (Jacobian.dense y.problem l.differencing y.u y.fu).Returns y.stats J st ∧
        z = { y with stats := st, memory := { y.memory with jacobian := some J } })
      (fun _ _ => True) y := by
    rw [jacobian, Act.wp_bind, Act.wp_read]
    cases hm : y.memory.jacobian with
    | some J => exact .inl ⟨rfl, rfl⟩
    | none =>
      rw [Act.wp_bind, counting, Act.wp_zoom]
      refine (Act.wp_self _ _).mono (fun J st hJ => ?_) fun _ _ _ => trivial
      exact .inr ⟨rfl, st, hJ, rfl⟩
  exact h.wp_iff.mp hw

/-- Once a step has its Jacobian, it is remembered. -/
theorem jacobian_remembered (h : (jacobian l).Returns y J z) : z.memory.jacobian = some J := by
  obtain ⟨hm, rfl⟩ | ⟨-, st, -, rfl⟩ := jacobian_cases h
  · exact hm
  · rfl

/-- A Jacobian that is remembered is used as it is. -/
theorem returns_remembered (h : y.memory.jacobian = some J) : (jacobian l).Returns y J y := by
  apply Act.returns_of_wp
  rw [jacobian, Act.wp_bind, Act.wp_read, h]
  exact ⟨rfl, rfl⟩

/-- The search for a step counts a linear solve, however it ends. -/
theorem wp_search_price : (search l J).wp
    (fun _ x => x = { z with stats := z.stats.countLinear (l.solver.factors J) })
    (fun _ x => x = { z with stats := z.stats.countLinear (l.solver.factors J) }) z := by
  have hsolved : ∀ b u p, ((l.solver.solve (.dense J) b u p).run z.stats).state =
      z.stats.countLinear (l.solver.factors J) := fun b u p => l.solver.solve_price J b u p z.stats
  rw [search, Act.wp_bind, newtonStep, Act.wp_bind, Act.wp_read, Act.wp_bind, Act.wp_attempt,
    counting, Act.wp_zoom]
  refine (Act.wp_self _ _).mono (fun newton st hst => ?_) fun e st hst => ?_
  · rw [hsolved] at hst
    obtain rfl := hst.2
    rw [Act.wp_pure, Act.wp_bind, Act.wp_read]
    exact (Act.keeps_ofExcept _).wp rfl
  · rw [hsolved] at hst
    obtain rfl := hst.2
    simp only
    split
    · rw [Act.wp_pure, Act.wp_bind, Act.wp_read]
      exact (Act.keeps_ofExcept _).wp rfl
    · rfl

/-- Where a trial was accepted, only Bastin's rule has a Jacobian to keep. -/
theorem settle_drops (hscheme : scheme ≠ .bastin) (fu : Vec α n) (m : Memory α n) :
    (settle scheme fu m).jacobian = none := by
  cases scheme with
  | bastin => exact absurd rfl hscheme
  | _ => rfl

/-- Only Bastin's rule builds a Jacobian, for a trial that it accepts. -/
theorem wp_update_costs {rho : α} {trial : Vec α n} : (update scheme prm l rho s trial r).wp
    (fun accepted x => if scheme = .bastin ∧ accepted = true then
        ∃ K, (Jacobian.dense z.problem l.differencing trial r).Returns z.stats K x.stats ∧
          x.memory.jacobian = some K
      else x.stats = z.stats ∧ x.memory.jacobian = z.memory.jacobian)
    (fun _ _ => True) z := by
  have hplain : ∀ {scheme : Scheme} {c : Act α (Memory α n) Bool}, scheme ≠ .bastin →
      (∀ K, c.Keeps (Holds K)) →
      (remembering c).wp (fun accepted x => if scheme = .bastin ∧ accepted = true then
          ∃ K, (Jacobian.dense z.problem l.differencing trial r).Returns z.stats K x.stats ∧
            x.memory.jacobian = some K
        else x.stats = z.stats ∧ x.memory.jacobian = z.memory.jacobian)
        (fun _ _ => True) z := by
    intro scheme c hscheme hc
    rw [remembering, Act.wp_zoom]
    refine ((hc z.memory.jacobian).wp rfl).mono (fun accepted m hm => ?_) fun _ _ _ => trivial
    rw [if_neg fun h => hscheme h.1]
    exact ⟨rfl, hm⟩
  cases scheme with
  | simple => exact hplain (by decide) fun _ => keeps_updateSimple_holds
  | nlsolve => exact hplain (by decide) fun _ => keeps_updateNlsolve_holds
  | fan =>
    rw [update, Act.wp_bind, Act.wp_read]
    exact hplain (by decide) fun _ => keeps_updateFan_holds
  | bastin =>
    rw [update, updateBastin]
    refine wp_verdict fun kept _ => ?_
    cases kept with
    | true =>
      rw [if_pos rfl, Act.wp_bind, remembering, Act.wp_zoom, shrink, Act.wp_update, Act.wp_pure,
        if_neg fun h => Bool.false_ne_true h.2]
      exact ⟨rfl, rfl⟩
    | false =>
      rw [if_neg Bool.false_ne_true, Act.wp_bind, remembering, Act.wp_zoom, recover, Act.wp_update,
        Act.wp_bind, Act.wp_read, Act.wp_bind, Iteration.adopt, Act.wp_update, Act.wp_bind,
        Act.wp_read, Act.wp_bind, counting, Act.wp_zoom]
      refine (Act.wp_self _ _).mono (fun K st hK => ?_) fun _ _ _ => trivial
      rw [Act.wp_bind, remembering, Act.wp_zoom, Act.wp_bind, Act.wp_update]
      have hbuilt : Holds (some K) { z.memory with shrinks := 0, jacobian := some K } := rfl
      refine (keeps_adjustBastin_holds.wp hbuilt).mono (fun _ m hm => ?_) fun _ _ _ => trivial
      rw [Act.wp_pure, if_pos ⟨rfl, rfl⟩]
      exact ⟨K, hK, hm⟩

theorem wp_attemptStep_costs (hJ : (jacobian l).Returns y J x) (hf : s.allFinite = true)
    (hfound : Finds l y J s) (hz : Prepared y z) (hm : z.memory.jacobian = some J)
    (hwork : z.stats = x.stats.countLinear (l.solver.factors J)) :
    (attemptStep scheme prm l o J s).wp (fun _ => Costs scheme prm l y) (fun _ _ => True) z := by
  rw [attemptStep, Act.wp_bind, Act.wp_read, Act.wp_bind, Iteration.evaluate, Act.wp_bind,
    Act.wp_update, Act.wp_bind, Act.wp_read, hz.u, hz.fu]
  simp only [hz.problem]
  cases hr : y.problem.residual (y.u + s) with
  | error e => trivial
  | ok r =>
    have htries : Tries l y J s r := ⟨hfound, hf, hr⟩
    rw [Act.wp_ofExcept_ok, Act.wp_bind]
    refine (Act.wp.and (wp_update_ruled (y := y) ?_) wp_update_costs).mono
      (fun accepted w hw => ?_) fun _ _ _ => trivial
    · exact ⟨⟨rfl, rfl, rfl, hz.code, hz.stopped⟩, hz.region⟩
    obtain ⟨⟨⟨shrinks, m, ⟨hjudges, -⟩, -⟩, -⟩, hcosts⟩ := hw
    cases accepted with
    | false =>
      rw [if_neg (fun h => Bool.false_ne_true h.2)] at hcosts
      rw [if_neg Bool.false_ne_true, Act.wp_bind, Act.wp_read]
      refine wp_exhausted_of (.rejects hJ htries hjudges (hcosts.2.trans hm) ?_)
        fun h => h.congr rfl rfl
      rw [hcosts.1, hwork]
    | true =>
      rw [if_pos rfl, Act.wp_bind, Iteration.adopt, Act.wp_update, Act.wp_bind, remembering,
        Act.wp_zoom, Act.wp_update, Act.wp_bind, Act.wp_read]
      refine wp_exhausted_of ?_ fun h => h.congr rfl rfl
      by_cases hscheme : scheme = .bastin
      · subst hscheme
        rw [if_pos ⟨rfl, rfl⟩] at hcosts
        obtain ⟨K, hK, hleft⟩ := hcosts
        rw [hwork] at hK
        exact .rebuilds hJ htries hjudges rfl hleft hK
      · rw [if_neg fun h => hscheme h.1] at hcosts
        exact .accepts hJ htries hjudges hscheme (settle_drops hscheme r w.memory)
          (hcosts.1.trans (by rw [hwork]))

/-- Every step that returns has its costs. -/
theorem wp_advance_costs : (advance scheme prm l o).wp (fun _ => Costs scheme prm l y)
    (fun _ _ => True) y := by
  rw [advance_eq, Act.wp_bind]
  refine (blind_prepared.keeps_jacobian.wp_returns ⟨.refl y, rfl⟩).mono (fun J z hz => ?_)
    fun _ _ _ => trivial
  obtain ⟨hJ, hz⟩ := hz
  have hsearch : (search l J).wp (fun s x => ((search l J).Returns z s x ∧ Prepared y x) ∧
      x = { z with stats := z.stats.countLinear (l.solver.factors J) }) (fun _ _ => True) z :=
    (((keeps_search_prepared J).wp_returns hz).mono (fun _ _ h => h) fun _ _ _ => trivial).and
      (wp_search_price.mono (fun _ _ h => h) fun _ _ _ => trivial)
  rw [Act.wp_bind]
  refine hsearch.mono (fun s x hx => ?_) fun _ _ _ => trivial
  obtain ⟨⟨hs, hx⟩, rfl⟩ := hx
  have hfound : Finds l y J s := ⟨z, _, hJ, hs⟩
  have hm : z.memory.jacobian = some J := jacobian_remembered hJ
  split
  · rename_i hfinite
    exact wp_attemptStep_costs hJ hfinite hfound hx hm rfl
  · rename_i hfinite
    rw [wp_terminate]
    exact .strays hJ hfound (by simpa using hfinite) hm rfl

/-- The costs of a lap are those of its step. -/
theorem costs_of_lap (h : (lap (method scheme prm l o n)).Returns y () x) :
    ∃ z, Costs scheme prm l y z ∧ x = { z with stats := z.stats.countStep } := by
  have hlap : (lap (method scheme prm l o n)).wp
      (fun _ x => ∃ z, Costs scheme prm l y z ∧ x = { z with stats := z.stats.countStep })
      (fun _ _ => True) y := by
    rw [lap, Act.wp_bind]
    exact wp_advance_costs.mono (fun _ z hz => ⟨z, hz, rfl⟩) fun _ _ h => h
  exact h.wp_iff.mp hlap

end Work

section Currency

variable (l) in
/-- A remembered Jacobian is that of the problem at the present iterate and residual. -/
structure Current (S : System α n) (it : Iteration α n (Memory α n)) : Prop where
  system : it.problem.system = S
  jacobian : ∀ J, it.memory.jacobian = some J →
    Jacobian.Yields it.problem l.differencing it.u it.fu J

variable {S : System α n}

/-- Only the problem, the iterate, its residual and the remembered Jacobian matter. -/
theorem Current.congr (h : Current l S y) (hp : x.problem = y.problem) (hu : x.u = y.u)
    (hfu : x.fu = y.fu) (hm : x.memory.jacobian = y.memory.jacobian) : Current l S x := by
  refine ⟨hp ▸ h.system, fun J hJ => ?_⟩
  rw [hp, hu, hfu]
  exact h.jacobian J (hm ▸ hJ)

/-- A fresh memory holds no Jacobian. -/
theorem fresh_jacobian (u fu : Vec α n) : (fresh scheme u fu).jacobian = none := by
  cases scheme <;> rfl

theorem Current.dropped (h : y.problem.system = S) (hm : y.memory.jacobian = none) :
    Current l S y := ⟨h, fun _ hJ => nomatch hm.symm.trans hJ⟩

/-- The Jacobian that a step uses is the one at the present iterate and residual. -/
theorem Current.yields (h : Current l S y) (hJ : (TrustRegion.jacobian l).Returns y J z) :
    Jacobian.Yields y.problem l.differencing y.u y.fu J := by
  obtain ⟨hm, rfl⟩ | ⟨-, st, hb, -⟩ := jacobian_cases hJ
  · exact h.jacobian J hm
  · exact Jacobian.yields_of_returns hb

theorem keeps_jacobian_current : (jacobian l).Keeps (Current l S) := by
  apply Act.keeps_of_wp
  intro y hy
  rw [jacobian, Act.wp_bind, Act.wp_read]
  cases hm : y.memory.jacobian with
  | some J => exact hy
  | none =>
    rw [Act.wp_bind, counting, Act.wp_zoom]
    refine (Act.wp_self _ _).mono (fun J st hJ => ?_) fun _ st _ => ?_
    · refine ⟨hy.system, fun K hK => ?_⟩
      obtain rfl := Option.some.inj hK
      exact Jacobian.yields_of_returns hJ
    · exact hy.congr rfl rfl rfl rfl

/-- An accepted trial has its own Jacobian under Bastin's rule; another change of the region leaves
the Jacobian alone. Where a Jacobian was built before, the functions being as they are, it can be
built at the trial. -/
theorem wp_update_current (hq : ∀ p, S.Quiet p) {rho : α} {trial : Vec α n} (hz : Current l S z)
    (hm : z.memory.jacobian = some J) : (update scheme prm l rho s trial r).wp
      (fun accepted x => Current l S x ∧
        (scheme = .bastin → accepted = true → x.u = trial ∧ x.fu = r))
      (fun _ => Current l S) z := by
  have hplain : ∀ {scheme : Scheme} {c : Act α (Memory α n) Bool}, scheme ≠ .bastin →
      (∀ K, c.Keeps (Holds K)) → (remembering c).wp (fun accepted x => Current l S x ∧
        (scheme = .bastin → accepted = true → x.u = trial ∧ x.fu = r))
        (fun _ => Current l S) z := by
    intro scheme c hscheme hc
    rw [remembering, Act.wp_zoom]
    refine ((hc z.memory.jacobian).wp rfl).mono (fun accepted m hm => ?_) fun _ m hm => ?_
    · exact ⟨hz.congr rfl rfl rfl hm, fun h => absurd h hscheme⟩
    · exact hz.congr rfl rfl rfl hm
  cases scheme with
  | simple => exact hplain (by decide) fun _ => keeps_updateSimple_holds
  | nlsolve => exact hplain (by decide) fun _ => keeps_updateNlsolve_holds
  | fan =>
    rw [update, Act.wp_bind, Act.wp_read]
    exact hplain (by decide) fun _ => keeps_updateFan_holds
  | bastin =>
    rw [update, updateBastin, Act.wp_bind]
    cases prm.stepThreshold.keptBy rho with
    | error e => exact hz
    | ok kept =>
      rw [Act.wp_ofExcept_ok]
      cases kept with
      | true =>
        rw [if_pos rfl, Act.wp_bind, remembering, Act.wp_zoom, shrink, Act.wp_update, Act.wp_pure]
        exact ⟨hz.congr rfl rfl rfl rfl, fun _ h => absurd h Bool.false_ne_true⟩
      | false =>
        have hquiet : z.problem.Quiet := by
          unfold Problem.Quiet
          rw [hz.system]
          exact hq _
        obtain ⟨K, hK⟩ := (hz.jacobian J hm).elsewhere hquiet trial r
        have hbuild : ∀ st, (Jacobian.dense z.problem l.differencing trial r).Returns st K
            ((Jacobian.dense z.problem l.differencing trial r).run st).state :=
          fun st => ⟨hK st, rfl⟩
        rw [if_neg Bool.false_ne_true, Act.wp_bind, remembering, Act.wp_zoom, recover,
          Act.wp_update, Act.wp_bind, Act.wp_read, Act.wp_bind, Iteration.adopt, Act.wp_update,
          Act.wp_bind, Act.wp_read, Act.wp_bind, counting, Act.wp_zoom, (hbuild _).wp_iff,
          Act.wp_bind, remembering, Act.wp_zoom, Act.wp_bind, Act.wp_update]
        have hbuilt : Holds (some K) { z.memory with shrinks := 0, jacobian := some K } := rfl
        have hcurrent : ∀ m st, Holds (some K) m → Current l S { z with
            u := trial, fu := r, stats := st, memory := m } := by
          intro m st hm
          refine ⟨hz.system, fun K' hK' => ?_⟩
          obtain rfl : K = K' := Option.some.inj (hm.symm.trans hK')
          exact hK
        exact (keeps_adjustBastin_holds.wp hbuilt).mono
          (fun _ m hm => ⟨hcurrent m _ hm, fun _ _ => ⟨rfl, rfl⟩⟩) fun _ m hm => hcurrent m _ hm

theorem wp_attemptStep_current (hq : ∀ p, S.Quiet p) (hz : Current l S z)
    (hm : z.memory.jacobian = some J) : (attemptStep scheme prm l o J s).wp
      (fun _ => Current l S) (fun _ => Current l S) z := by
  rw [attemptStep, Act.wp_bind, Act.wp_read, Act.wp_bind, Iteration.evaluate, Act.wp_bind,
    Act.wp_update, Act.wp_bind, Act.wp_read]
  have hcounted : Current l S { z with stats := z.stats.countResidual } :=
    hz.congr rfl rfl rfl rfl
  dsimp only
  cases z.problem.residual (z.u + s) with
  | error e => exact hcounted
  | ok r =>
    rw [Act.wp_ofExcept_ok, Act.wp_bind]
    refine (wp_update_current hq hcounted hm).mono (fun accepted w hw => ?_) fun _ _ h => h
    obtain ⟨hw, hmoved⟩ := hw
    cases accepted with
    | false =>
      rw [if_neg Bool.false_ne_true, Act.wp_bind, Act.wp_read]
      exact wp_exhausted_of hw fun h => h.congr rfl rfl rfl rfl
    | true =>
      rw [if_pos rfl, Act.wp_bind, Iteration.adopt, Act.wp_update, Act.wp_bind, remembering,
        Act.wp_zoom, Act.wp_update, Act.wp_bind, Act.wp_read]
      refine wp_exhausted_of ?_ fun h => h.congr rfl rfl rfl rfl
      by_cases hscheme : scheme = .bastin
      · subst hscheme
        obtain ⟨hu, hfu⟩ := hmoved rfl rfl
        exact hw.congr rfl hu.symm hfu.symm rfl
      · exact .dropped hw.system (settle_drops hscheme r w.memory)

/-- A step leaves the remembered Jacobian in step with the iterate, even where it raises. -/
theorem keeps_advance_current (hq : ∀ p, S.Quiet p) :
    (advance scheme prm l o).Keeps (Current l S) := by
  apply Act.keeps_of_wp
  intro y hy
  rw [advance_eq, Act.wp_bind]
  refine (keeps_jacobian_current.wp_returns hy).mono (fun J z hz => ?_) fun _ _ h => h
  obtain ⟨hJ, hz⟩ := hz
  have hm : z.memory.jacobian = some J := jacobian_remembered hJ
  have hsought : ∀ st, Current l S { z with stats := st } := fun st =>
    hz.congr rfl rfl rfl rfl
  rw [Act.wp_bind]
  refine wp_search_price.mono (fun s x hx => ?_) fun _ x hx => hx ▸ hsought _
  subst hx
  split
  · exact wp_attemptStep_current hq (hsought _) hm
  · rw [wp_terminate]
    exact hz.congr rfl rfl rfl rfl

/-- No request brings the remembered Jacobian out of step, not even one that raises. -/
theorem keeps_serve_current (hq : ∀ p, S.Quiet p) (q : Request α) :
    (serve (method scheme prm l o n) q).Keeps (Current l S) := by
  refine keeps_serve ?_ (fun start parameter => Act.keeps_of_wp fun it hit => ?_) q
  · exact keeps_step_of_advance (keeps_advance_current hq) (fun it st h => h.congr rfl rfl rfl rfl)
      fun it code h => h.congr rfl rfl rfl rfl
  · refine (wp_reinit_begun start parameter).mono (fun _ x hx => ?_) fun e x hx => ?_
    · obtain ⟨P, hP, -, rfl⟩ := hx
      exact .dropped ((Problem.remake_system hP).trans hit.system) (fresh_jacobian _ _)
    · obtain rfl | ⟨P, hP, hfault, -⟩ := hx
      · exact hit
      · -- The residual does not raise.
        have hquiet : P.Quiet := by
          unfold Problem.Quiet
          rw [Problem.remake_system hP, hit.system]
          exact hq _
        cases (hquiet.residualInto P.start it.fu).symm.trans hfault

end Currency

section Counts

variable (scheme prm l) in
/-- The trial of a step is accepted. -/
def Accepts (y : Iteration α n (Memory α n)) : Prop :=
  ∃ J s r shrinks, Tries l y J s r ∧ Judges scheme prm (reductionRatio J y.fu s r) shrinks true

open Classical in
variable (scheme prm l o) in
/-- How many of the first so many steps of a run accept their trial. -/
noncomputable def accepted (b : Iteration α n (Memory α n)) (k : ℕ) : ℕ :=
  Nat.count (fun i => Accepts scheme prm l (after (method scheme prm l o n) i b)) k

open Classical in
variable (scheme prm l o) in
theorem accepted_succ (b : Iteration α n (Memory α n)) (k : ℕ) :
    accepted scheme prm l o b (k + 1) = accepted scheme prm l o b k +
      if Accepts scheme prm l (after (method scheme prm l o n) k b) then 1 else 0 :=
  Nat.count_succ _ _

/-- Where the first step is not counted, its trial was not accepted. -/
theorem not_accepts_of_count {b : Iteration α n (Memory α n)}
    (h : accepted scheme prm l o b 1 = 0) : ¬ Accepts scheme prm l b := by
  intro hb
  have hcount := accepted_succ scheme prm l o b 0
  rw [after, if_pos hb, h] at hcount
  omega

def missing (y : Iteration α n (Memory α n)) : ℕ := if y.memory.jacobian = none then 1 else 0

omit [Scalar α] in
theorem missing_of_none (h : y.memory.jacobian = none) : missing y = 1 := if_pos h

omit [Scalar α] in
theorem missing_of_some (h : y.memory.jacobian = some J) : missing y = 0 :=
  if_neg fun hn => nomatch hn.symm.trans h

theorem jacobian_njacs (h : (jacobian l).Returns y J z) :
    z.stats.njacs = y.stats.njacs + missing y := by
  obtain ⟨hm, rfl⟩ | ⟨hm, st, hb, rfl⟩ := jacobian_cases h
  · rw [missing_of_some hm]
    exact (Int.add_zero _).symm
  · rw [missing_of_none hm]
    exact congrArg Stats.njacs (hb.wp_iff.mp Jacobian.wp_dense_counted)

theorem not_accepts_of_strays (hf : Finds l y J s) (hs : s.allFinite = false) :
    ¬ Accepts scheme prm l y := by
  rintro ⟨J', s', r, shrinks, ht, -⟩
  obtain ⟨rfl, rfl⟩ := hf.unique ht.found
  exact Bool.false_ne_true (hs.symm.trans ht.finite)

theorem not_accepts_of_rejects {shrinks : Bool} (ht : Tries l y J s r)
    (hj : Judges scheme prm (reductionRatio J y.fu s r) shrinks false) :
    ¬ Accepts scheme prm l y := by
  rintro ⟨J', s', r', shrinks', ht', hj'⟩
  obtain ⟨rfl, rfl, rfl⟩ := ht.unique ht'
  exact Bool.false_ne_true (hj.unique hj').2

open Classical in
/-- With the Jacobians that are still to be built, one more is counted after every trial that was
accepted. -/
theorem Costs.balance (h : Costs scheme prm l y x) : x.stats.njacs + missing x =
    y.stats.njacs + missing y + if Accepts scheme prm l y then 1 else 0 := by
  cases h with
  | strays hJ hf hs hleft hwork =>
    rw [hwork, missing_of_some hleft, if_neg (not_accepts_of_strays hf hs), ← jacobian_njacs hJ]
    rfl
  | rejects hJ ht hj hleft hwork =>
    rw [hwork, missing_of_some hleft, if_neg (not_accepts_of_rejects ht hj), ← jacobian_njacs hJ]
    rfl
  | accepts hJ ht hj hscheme hleft hwork =>
    rw [hwork, missing_of_none hleft, if_pos ⟨_, _, _, _, ht, hj⟩, ← jacobian_njacs hJ]
    rfl
  | rebuilds hJ ht hj hscheme hleft hwork =>
    have hcount := congrArg Stats.njacs (hwork.wp_iff.mp Jacobian.wp_dense_counted)
    rw [missing_of_some hleft, if_pos ⟨_, _, _, _, ht, hj⟩, ← jacobian_njacs hJ]
    exact (Int.add_zero _).trans hcount

/-- A step builds the Jacobian that is missing; only Bastin's rule leaves none to be built. -/
theorem Costs.built (h : Costs scheme prm l y x) :
    if scheme = .bastin then missing x = 0 else x.stats.njacs = y.stats.njacs + missing y := by
  cases h with
  | strays hJ hf hs hleft hwork =>
    split
    · exact missing_of_some hleft
    · rw [hwork, ← jacobian_njacs hJ]
      rfl
  | rejects hJ ht hj hleft hwork =>
    split
    · exact missing_of_some hleft
    · rw [hwork, ← jacobian_njacs hJ]
      rfl
  | accepts hJ ht hj hscheme hleft hwork =>
    rw [if_neg hscheme, hwork, ← jacobian_njacs hJ]
    rfl
  | rebuilds hJ ht hj hscheme hleft hwork =>
    rw [if_pos hscheme]
    exact missing_of_some hleft

variable {b e : Iteration α n (Memory α n)} {P : Problem α n} {fu : Vec α n}

/-- The balance of a run: one Jacobian at the beginning, and one for every accepted trial. -/
theorem balance_of_laps (hb : b = begun (method scheme prm l o n) P fu) {k : ℕ}
    (h : Laps (method scheme prm l o n) k b x) :
    x.stats.njacs + missing x = 1 + accepted scheme prm l o b k := by
  classical
  refine h.induction (C := fun k x => x.stats.njacs + missing x = 1 + accepted scheme prm l o b k)
    ?_ fun k y x _ hafter _ hl hy => ?_
  · rw [hb, missing_of_none (fresh_jacobian _ _), accepted, Nat.count_zero]
    rfl
  · obtain ⟨z, hz, rfl⟩ := costs_of_lap hl
    have hbalance : z.stats.njacs + missing z = _ := hz.balance
    change z.stats.njacs + missing z = _
    rw [hbalance, hy, accepted_succ, hafter]
    push_cast
    ring

/-- One more Jacobian than steps at the most. -/
theorem njacs_le_of_laps (hb : b = begun (method scheme prm l o n) P fu) {k : ℕ}
    (h : Laps (method scheme prm l o n) k b x) : x.stats.njacs ≤ k + 1 := by
  classical
  have hbalance := balance_of_laps hb h
  have haccepted : accepted scheme prm l o b k ≤ k := Nat.count_le _
  omega

theorem njacs_of_laps (hb : b = begun (method scheme prm l o n) P fu) {k : ℕ}
    (h : Laps (method scheme prm l o n) (k + 1) b x) : x.stats.njacs =
      1 + accepted scheme prm l o b (if scheme = .bastin then k + 1 else k) := by
  obtain ⟨y, hy, -, hl⟩ := h.last
  have hbalance := balance_of_laps hb h
  have hbefore := balance_of_laps hb hy
  obtain ⟨z, hz, rfl⟩ := costs_of_lap hl
  have hbuilt := hz.built
  split at hbuilt
  · rename_i hscheme
    rw [if_pos hscheme, ← hbalance]
    change _ = z.stats.njacs + missing z
    rw [hbuilt]
    exact (Int.add_zero _).symm
  · rename_i hscheme
    rw [if_neg hscheme, ← hbefore]
    exact hbuilt

end Counts

/-- The Jacobian of a trust region is neither stale nor built for nothing. On a problem whose
functions return everywhere, a Jacobian that is remembered between calls is that of the problem at
the present iterate and residual, whatever was asked of the run and whatever it raised, and so is
the one that a step uses. After a step whose trial was not accepted it is used again as it is. Of a
run that has begun, the first step builds a Jacobian and so does every step after an accepted trial,
or the step that accepts it under Bastin's rule. -/
theorem jacobians_stay_current {P : Problem α n} (hq : ∀ p, P.system.Quiet p)
    {it₀ it : Iteration α n (Memory α n)}
    (h₀ : (start (method scheme prm l o n) P).Returns () it₀ ())
    (h : Act.Reached (serve (method scheme prm l o n)) (fun _ => True) it₀ it) :
    (∀ J, it.memory.jacobian = some J →
      Jacobian.Yields it.problem l.differencing it.u it.fu J) ∧
    (∀ J z, (jacobian l).Returns it J z →
      Jacobian.Yields it.problem l.differencing it.u it.fu J) ∧
    (∀ x, (step (method scheme prm l o n)).Returns it () x →
      x.stats.nsteps = it.stats.nsteps + 1 → ¬ Accepts scheme prm l it →
      ∃ J z, (jacobian l).Returns it J z ∧ (jacobian l).Returns x J x) ∧
    ∀ b e rs (k : ℕ), Begins (method scheme prm l o n) P b →
      Act.Served (serve (method scheme prm l o n)) (GoesOn (method scheme prm l o n)) b rs e →
      e.stats.nsteps = k + 1 →
      e.stats.njacs = 1 + accepted scheme prm l o b (if scheme = .bastin then k + 1 else k) := by
  obtain ⟨-, rfl⟩ := h₀.wp_iff.mp wp_start_begun
  have hcurrent : Current l P.system it := by
    refine h.keeps ?_ fun q _ => keeps_serve_current hq q
    exact .dropped rfl (fresh_jacobian _ _)
  refine ⟨hcurrent.jacobian, fun J z hJ => hcurrent.yields hJ, fun x hx hcounted hrejected => ?_,
    fun b e rs k hb he hsteps => ?_⟩
  · obtain ⟨-, rfl⟩ | ⟨-, w, hl, rfl⟩ := step_cases hx
    · rw [tested_stats] at hcounted
      omega
    · obtain ⟨z, hz, rfl⟩ := costs_of_lap hl
      have hkept : ∀ {J : Mat α n n}, z.memory.jacobian = some J →
          (tested (method scheme prm l o n)
            { z with stats := z.stats.countStep }).memory.jacobian = some J := by
        intro J hm
        rw [tested_memory]
        exact hm
      cases hz with
      | strays hJ hf hs hleft hwork => exact ⟨_, _, hJ, returns_remembered (hkept hleft)⟩
      | rejects hJ ht hj hleft hwork => exact ⟨_, _, hJ, returns_remembered (hkept hleft)⟩
      | accepts hJ ht hj _ _ _ => exact absurd ⟨_, _, _, _, ht, hj⟩ hrejected
      | rebuilds hJ ht hj _ _ _ => exact absurd ⟨_, _, _, _, ht, hj⟩ hrejected
  · obtain ⟨P', fu, -, hbegun⟩ := hb.begun method_keeps_at
    obtain ⟨j, x, hx, hj, htested⟩ := laps_of_served method_keeps_at he (by rw [hbegun]; rfl)
    obtain rfl : j = k + 1 := by omega
    have hstats : e.stats = x.stats := by simpa using congrArg Iteration.stats htested
    rw [hstats]
    exact njacs_of_laps hbegun hx

/-- Linear solves as they are set up unless told otherwise. -/
def usualSolves : Linearization Float := (Settings.initial : Configuration).linearization

/-- Bastin's rule under usual options. -/
def bastinRule : Method Float 2 (Memory Float 2) :=
  method .bastin (RadiusRule.ofScheme .bastin).params usualSolves ⟨1e-10, 1000, .l2⟩ 2

/-- A system without Newton steps, and a start that is nearer to its root than the first sphere. -/
def nearRidge : Problem Float 2 := ridge #v[0.375, 0.0]

/-- The run that the rule begins there. -/
def ridgeRun : Iteration Float 2 (Memory Float 2) :=
  begun bastinRule nearRidge (nearRidge.residualInto nearRidge.start (Vec.zero 2)).array

/-- Of the first two steps, one makes a trial beyond the root that is rejected, and the other makes
one that is accepted. -/
theorem jacobians_stay_current_ridge :
    (∀ p, nearRidge.system.Quiet p) ∧ (start bastinRule nearRidge).Returns () ridgeRun () ∧
    Act.Served (serve bastinRule) (GoesOn bastinRule) ridgeRun (List.replicate 2 .step)
      (after bastinRule 2 ridgeRun) ∧
    accepted .bastin (RadiusRule.ofScheme .bastin).params usualSolves ⟨1e-10, 1000, .l2⟩
      ridgeRun 2 = 1 ∧
    ∃ J z, (jacobian usualSolves).Returns ridgeRun J z ∧
      (jacobian usualSolves).Returns (after bastinRule 1 ridgeRun) J
        (after bastinRule 1 ridgeRun) := by
  have hq : ∀ p, nearRidge.system.Quiet p := fun p =>
    ⟨fun _ => rfl, fun j hj _ => by cases hj; rfl⟩
  have hstart : (start bastinRule nearRidge).Returns () ridgeRun () := returns_start rfl
  have hok : ∀ k < 2,
      ((step bastinRule).run (after bastinRule k ridgeRun)).result.isOk = true := by
    decide +kernel
  have hsteps : ∀ k ≤ 2, (after bastinRule k ridgeRun).stats.nsteps = k := by decide +kernel
  have hnjacs : ∀ k ≤ 2, 1 ≤ k → (after bastinRule k ridgeRun).stats.njacs = k := by
    decide +kernel
  obtain ⟨-, -, hkept, hcount⟩ := jacobians_stay_current hq hstart .start
  have hone := hcount _ (after bastinRule 1 ridgeRun) _ 0 (.start hstart)
    (served_steps fun i hi => hok i (by omega)) (hsteps 1 (by decide))
  have htwo := hcount _ (after bastinRule 2 ridgeRun) _ 1 (.start hstart) (served_steps hok)
    (hsteps 2 le_rfl)
  rw [if_pos rfl] at hone htwo
  have hone' : (1 : ℤ) = 1 + (accepted _ _ _ _ _ 1 : ℕ) :=
    (hnjacs 1 (by decide) le_rfl).symm.trans hone
  have htwo' : (2 : ℤ) = 1 + (accepted _ _ _ _ _ 2 : ℕ) :=
    (hnjacs 2 le_rfl (by decide)).symm.trans htwo
  refine ⟨hq, hstart, served_steps hok, by omega, ?_⟩
  have hzero := Int.add_left_cancel ((Int.add_zero 1).trans hone')
  exact hkept _ (Act.returns_of_isOk (hok 0 (by decide))) (hsteps 1 (by decide))
    (not_accepts_of_count (Int.ofNat.inj hzero.symm))

end Rootfinder.TrustRegion
