import Rootfinder.Algorithm
import Rootfinder.Proofs.Methods

namespace Rootfinder

variable {α β σ : Type} {n : Nat}

namespace Iteration

structure Still (y z : Iteration α n σ) : Prop where
  problem : z.problem = y.problem
  u : z.u = y.u
  fu : z.fu = y.fu
  code : z.code = y.code
  stopped : z.stopped = y.stopped

theorem Still.refl (y : Iteration α n σ) : Still y y := ⟨rfl, rfl, rfl, rfl, rfl⟩

theorem Still.terminated {y z : Iteration α n σ} (h : Still y z) :
    z.terminated = y.terminated := by
  rw [Iteration.terminated, Iteration.terminated, h.code, h.stopped]

theorem Still.worked {y z : Iteration α n σ} (h : Still y z) (s : Stats) (m : σ) :
    Still y { z with stats := s, memory := m } :=
  ⟨h.problem, h.u, h.fu, h.code, h.stopped⟩

/-- A run goes on with a steady memory, or the step that led here has ended it. -/
def Onward (steady : σ → Prop) (quits : Iteration α n σ → Prop) (x : Iteration α n σ) : Prop :=
  x.terminated = false ∧ steady x.memory ∨ x.stopped = true ∧ quits x

end Iteration

open Iteration

variable [Scalar α]

namespace LineSearch

inductive Lengths (prm : Params α) : α → α → Prop where
  | here {a : α} (h : prm.minAlpha ≤ a) : Lengths prm a a
  | next {a b : α} (h : prm.minAlpha ≤ a) (hb : Lengths prm (a * prm.reduction) b) :
    Lengths prm a b

def Tells (value : Vec α n → Except (Fault α) (Vec α n)) (Inv : σ → Prop)
    (residual : Vec α n → Act α σ (Vec α n)) : Prop :=
  ∀ x s, Inv s → (residual x).wp (fun r s' => Inv s' ∧ value x = .ok r)
    (fun e s' => Inv s' ∧ value x = .error e) s

namespace Search

variable (s : Search α σ n) (value : Vec α n → Except (Fault α) (Vec α n)) (a : α)

def Answered : Prop :=
  ∀ b, Lengths s.params a b → ∃ r, value (s.start + Vec.scale b s.delta) = .ok r

def Worse (r : Vec α n) : Prop :=
  Scalar.isFinite (s.norm.of r) = true →
    ¬ s.norm.of r ≤ (1.0 - s.params.armijo * a) * s.current ∧ ¬ s.norm.of r < s.current

def Barren : Prop :=
  ∀ b r, Lengths s.params a b → value (s.start + Vec.scale b s.delta) = .ok r → s.Worse b r

/-- A search that raises for want of progress, although the function returned at all trials, has had
no better trial and no productive one. -/
def Vain (best : Option (Trial α n)) (e : Fault α) : Prop :=
  e.kind = .convergence → s.Answered value a → best = none ∧ s.Barren value a

variable {s value a} {Inv : σ → Prop} {t : σ}

theorem Answered.shorter (h : s.Answered value a) (ha : s.params.minAlpha ≤ a) :
    s.Answered value (a * s.params.reduction) :=
  fun b hb => h b (.next ha hb)

/-- What is barren from the next length on is so from this one on, if it is barren here. -/
theorem Barren.longer (h : s.Barren value (a * s.params.reduction)) {r : Vec α n}
    (hr : value (s.start + Vec.scale a s.delta) = .ok r) (hn : s.Worse a r) :
    s.Barren value a := by
  intro b r' hb hr' hfinite
  cases hb with
  | here =>
    obtain rfl := Except.ok.inj (hr.symm.trans hr')
    exact hn hfinite
  | next _ hb => exact h b r' hb hr' hfinite

theorem Vain.longer {best best' : Option (Trial α n)} {e : Fault α}
    (h : s.Vain value (a * s.params.reduction) best' e) (ha : s.params.minAlpha ≤ a) {r : Vec α n}
    (hr : value (s.start + Vec.scale a s.delta) = .ok r)
    (hn : best' = none → best = none ∧ s.Worse a r) : s.Vain value a best e := by
  intro hk hanswered
  obtain ⟨hbest, hbarren⟩ := h hk (hanswered.shorter ha)
  obtain ⟨hnone, hworse⟩ := hn hbest
  exact ⟨hnone, hbarren.longer hr hworse⟩

/-- Only a trial that is no better leaves nothing to fall back on. -/
theorem better_eq_none {best : Option (Trial α n)} {t : Trial α n} (h : s.better best t = none) :
    best = none ∧ ¬ t.norm < s.current := by
  unfold better at h
  split at h
  · cases h
  · rename_i hworse
    subst h
    exact ⟨rfl, hworse⟩

/-- A search that finds nothing has searched in vain. -/
theorem wp_trials_vain (hs : Tells value Inv s.residual) (fuel : Nat)
    (best : Option (Trial α n)) (ht : Inv t) : (s.trials fuel a best).wp (fun _ => Inv)
      (fun e t' => Inv t' ∧ s.Vain value a best e) t := by
  induction fuel generalizing a best t with
  | zero => exact ⟨ht, fun hk => nomatch hk⟩
  | succ fuel ih =>
    have hshort : ∀ (best' : Option (Trial α n)) (t' : σ) (r : Vec α n),
        s.params.minAlpha ≤ a → Inv t' → value (s.start + Vec.scale a s.delta) = .ok r →
        (best' = none → best = none ∧ s.Worse a r) →
        (if a * s.params.reduction < a then s.trials fuel (a * s.params.reduction) best'
          else Act.raise .endless).wp (fun _ => Inv)
            (fun e t' => Inv t' ∧ s.Vain value a best e) t' := by
      intro best' t' r hle ht' hr hn
      split
      · exact (ih best' ht').mono (fun _ _ h => h) fun e t'' h => ⟨h.1, h.2.longer hle hr hn⟩
      · exact ⟨ht', fun hk => nomatch hk⟩
    rw [trials]
    split
    · rename_i hle
      rw [Act.wp_bind, trial, Act.wp_bind]
      refine (hs _ t ht).mono (fun r t' h => ?_) fun e t' h => ?_
      · obtain ⟨ht', hr⟩ := h
        rw [Act.wp_pure]
        split
        · rename_i hinfinite
          rw [Act.wp_bind, Act.wp_log]
          exact hshort best t' r hle ht' hr fun hb => ⟨hb, fun hf => by simp [hf] at hinfinite⟩
        · split
          · rw [Act.wp_bind, Act.wp_log]
            exact ht'
          · rename_i hunproductive
            refine hshort _ t' r hle ht' hr fun hb => ?_
            obtain ⟨hnone, hworse⟩ := better_eq_none hb
            exact ⟨hnone, fun _ => ⟨fun h => hunproductive (by simpa [productive] using h), hworse⟩⟩
      · obtain ⟨ht', hr⟩ := h
        refine ⟨ht', fun _ hanswered => ?_⟩
        obtain ⟨r, hr'⟩ := hanswered a (.here hle)
        rw [hr] at hr'
        cases hr'
    · rename_i hle
      cases best with
      | none =>
        refine ⟨ht, fun _ _ => ⟨rfl, fun b r hb => ?_⟩⟩
        cases hb with
        | here h => exact absurd h hle
        | next h _ => exact absurd h hle
      | some b =>
        rw [conclude, Act.wp_bind, Act.wp_log]
        exact ht

end Search

/-- A step is capped, or the cap cannot be used. -/
theorem capped_cases (prm : Params α) (delta : Vec α n) :
    (∃ e, prm.maxDelta = .error e ∧
      (capped prm delta : Act α σ (Vec α n)) = Act.raise e) ∨
    ∃ delta', ∀ t : σ, (capped prm delta : Act α σ (Vec α n)).Returns t delta' t := by
  cases hm : prm.maxDelta with
  | error e => exact .inl ⟨e, rfl, by rw [capped, hm]⟩
  | ok cap =>
    refine .inr ?_
    cases cap with
    | none => exact ⟨delta, fun t => by rw [capped, hm]; exact ⟨rfl, rfl⟩⟩
    | some cap =>
      simp only [capped, hm]
      split
      · exact ⟨delta, fun t => ⟨rfl, rfl⟩⟩
      · split
        · exact ⟨_, fun t => ⟨rfl, rfl⟩⟩
        · exact ⟨delta, fun t => ⟨rfl, rfl⟩⟩

end LineSearch

namespace Iteration

/-- Evaluations count themselves and change nothing else. -/
theorem tells_evaluate (y : Iteration α n σ) :
    LineSearch.Tells y.problem.residual (Still y) evaluate := by
  intro x z h
  simp only [evaluate, Act.wp_bind, Act.wp_update, Act.wp_read]
  have hstill : Still y { z with stats := z.stats.countResidual } := h.worked _ z.memory
  have hvalue : z.problem.residual x = y.problem.residual x := by rw [h.problem]
  rw [hvalue]
  cases hr : y.problem.residual x with
  | ok r => exact ⟨hstill, rfl⟩
  | error e => exact ⟨hstill, rfl⟩

omit [Scalar α] in
/-- A move does not end the run, and leaves its memory. -/
theorem keeps_moveTo_running {P : σ → Prop} (x : Vec α n) :
    (moveTo x : Act α (Iteration α n σ) Unit).Keeps
      fun z => z.terminated = false ∧ P z.memory := by
  unfold moveTo refresh
  refine Act.Keeps.bind (fun z hz => hz) fun _ => ?_
  refine Act.Keeps.bind (fun z hz => hz) fun _ => Act.keeps_read.bind fun z => ?_
  refine Act.Keeps.bind (fun z hz => hz) fun _ => ?_
  split
  · exact Act.keeps_pure _
  · exact Act.keeps_raise _

end Iteration

namespace Newton

variable (search : Option (LineSearch.Params α)) (l : Linearization α) (o : Options α)
  (y : Iteration α n Unit)

def SolvesTo (r : Except (Fault α) (Vec α n)) : Prop :=
  ∃ J s, (Jacobian.build l.concrete y.problem l.differencing y.u y.fu).Returns y.stats J s ∧
    ((l.solver.solve J (-y.fu) y.u.toList y.problem.parameter).run s).result = r

def Unsolved : Prop :=
  (∃ e : Fault α, SolvesTo l y (.error e) ∧ e.kind = .linearAlgebra) ∨
    ∃ delta : Vec α n, SolvesTo l y (.ok delta) ∧ delta.allFinite = false

/-- The search along the step, capped if need be, is barren if the function returns at all trials
of it. -/
def Fruitless (prm : LineSearch.Params α) : Prop :=
  ∃ delta delta' : Vec α n, SolvesTo l y (.ok delta) ∧
    (LineSearch.capped prm delta : Act α (Iteration α n Unit) _).Returns y delta' y ∧
    let s : LineSearch.Search α (Iteration α n Unit) n :=
      ⟨prm, Iteration.evaluate, o.norm, y.u, delta', o.norm.of y.fu⟩
    s.Answered y.problem.residual 1.0 → s.Barren y.problem.residual 1.0

structure Quits (x : Iteration α n Unit) : Prop where
  u : x.u = y.u
  fu : x.fu = y.fu
  reason : x.code = .failure ∧ Unsolved l y ∨
    x.code = .stalled ∧ ∃ prm, search = some prm ∧ Fruitless l o y prm

variable {search l o y}

/-- A search that raises for want of progress found nothing. -/
theorem wp_searched {prm : LineSearch.Params α} {delta : Vec α n}
    (hd : SolvesTo l y (.ok delta))
    (hcap : ∀ e, prm.maxDelta = .error e → e.kind ≠ .convergence) {z : Iteration α n Unit}
    (hz : Still y z) :
    (searched o prm delta).wp (fun _ => Still y) (fun e z' => Still y z' ∧
      (e.kind = .convergence → Fruitless l o y prm)) z := by
  rw [searched, Act.wp_bind, Act.wp_read, LineSearch.search, Act.wp_bind]
  obtain ⟨e, he, hraise⟩ | ⟨delta', hret⟩ := LineSearch.capped_cases prm delta
    (σ := Iteration α n Unit)
  · rw [hraise, Act.wp_raise]
    exact ⟨hz, fun hk => absurd hk (hcap e he)⟩
  · rw [(hret z).wp_iff, hz.u, hz.fu]
    refine (LineSearch.Search.wp_trials_vain (tells_evaluate y) _ none hz).mono
      (fun _ _ h => h) fun e z' h => ⟨h.1, fun hk => ?_⟩
    exact ⟨delta, delta', hd, hret y, fun ha => (h.2 hk ha).2⟩

theorem wp_follow {delta : Vec α n} (hd : SolvesTo l y (.ok delta))
    (hcap : ∀ prm, search = some prm → ∀ e, prm.maxDelta = .error e → e.kind ≠ .convergence)
    (hy : y.terminated = false) {z : Iteration α n Unit} (hz : Still y z) :
    (follow search o delta).wp (fun _ => Onward (fun _ => True) (Quits search l o y))
      (fun _ _ => True) z := by
  rw [follow, Act.wp_bind, Act.wp_read]
  cases search with
  | none =>
    refine ((keeps_moveTo_running (P := fun _ => True) _).wp
      ⟨hz.terminated.trans hy, trivial⟩).mono (fun _ x hx => .inl hx) fun _ _ _ => trivial
  | some prm =>
    rw [Act.wp_bind, Act.wp_attempt]
    refine (wp_searched hd (hcap prm rfl) hz).mono (fun t x hx => ?_) fun e x hx => ?_
    · exact .inl ⟨hx.terminated.trans hy, trivial⟩
    · obtain ⟨hx, hbarren⟩ := hx
      simp only
      split
      · rename_i hk
        rw [Act.wp_bind, Act.wp_log, quit, wp_terminate]
        exact .inr ⟨rfl, hx.u, hx.fu, .inr ⟨rfl, prm, rfl, hbarren hk⟩⟩
      · trivial

/-- A step goes on, or ends the run with nothing moved. -/
theorem wp_advance (hcap : ∀ prm, search = some prm → ∀ e, prm.maxDelta = .error e →
    e.kind ≠ .convergence) (hy : y.terminated = false) :
    (advance search l o).wp (fun _ => Onward (fun _ => True) (Quits search l o y))
      (fun _ _ => True) y := by
  rw [advance, Act.wp_bind, Act.wp_read, Act.wp_bind, counting, Act.wp_zoom]
  refine (Act.wp_self _ _).mono (fun J s hJ => ?_) fun _ _ _ => trivial
  rw [Act.wp_bind, Act.wp_attempt, counting, Act.wp_zoom]
  refine (Act.wp_self _ _).mono (fun delta s' hs => ?_) fun e s' hs => ?_
  · have hd : SolvesTo l y (.ok delta) := ⟨J, s, hJ, hs.1⟩
    simp only
    split
    · exact wp_follow hd hcap hy ⟨rfl, rfl, rfl, rfl, rfl⟩
    · rename_i hfinite
      rw [quit, wp_terminate]
      exact .inr ⟨rfl, rfl, rfl, .inl ⟨rfl, .inr ⟨delta, hd, by simpa using hfinite⟩⟩⟩
  · have he : SolvesTo l y (.error e) := ⟨J, s, hJ, hs.1⟩
    simp only
    split
    · rename_i hk
      rw [Act.wp_bind, Act.wp_log, quit, wp_terminate]
      exact .inr ⟨rfl, rfl, rfl, .inl ⟨rfl, .inl ⟨e, he, hk⟩⟩⟩
    · trivial

end Newton

namespace TrustRegion

variable (scheme : Scheme) (prm : Params α) (l : Linearization α) (o : Options α)
  (y : Iteration α n (Memory α n))

/-- While the run goes on, no more steps in a row have shrunk the radius than may. -/
def Steady (m : Memory α n) : Prop := ∀ k, prm.maxShrinkTimes = some k → m.shrinks ≤ k

def Astray : Prop :=
  ∃ J newton z z', (jacobian l).Returns y J z ∧ (newtonStep l J).Returns z newton z' ∧
    (dogleg J y.fu y.memory.radius newton).allFinite = false

/-- How a step can end the run: it is not finite and nothing moved, or it was one too many of those
that shrank the radius. Under Bastin's rule such a step has not moved either. -/
inductive Quits (x : Iteration α n (Memory α n)) : Prop where
  | astray (hc : x.code = .failure) (hu : x.u = y.u) (hfu : x.fu = y.fu) (h : Astray l y)
  | shrunk (hc : x.code = .shrinkThresholdExceeded) {k : Nat} (hk : prm.maxShrinkTimes = some k)
    (hs : x.memory.shrinks = k + 1)
    (hstays : scheme = .bastin → x.u = y.u ∧ x.fu = y.fu)

variable {scheme prm l o y} {k : Nat} {m : Memory α n}

section Rules

variable {rho size : α}

def Within (k : Nat) (m : Memory α n) : Prop := m.shrinks ≤ k

omit [Scalar α] in
theorem keeps_expand {f : α → Memory α n → Memory α n}
    (hf : ∀ factor m, (f factor m).shrinks = m.shrinks) : (expand prm f).Keeps (Within k) := by
  refine (Act.keeps_ofExcept _).bind fun factor m hm => ?_
  change (f factor m).shrinks ≤ k
  rw [hf]
  exact hm

omit [Scalar α] in
/-- A rule asks for a verdict, shrinks the radius or does not, and goes on without doing so. -/
theorem wp_rule {missed : Except (Fault α) Bool} {down up : Act α (Memory α n) β}
    (hdown : ∀ m, Within k m → down.wp (fun _ => Within (k + 1)) (fun _ => Within (k + 1)) m)
    (hup : ∀ m, Within k m → up.wp (fun _ => Within (k + 1)) (fun _ => Within (k + 1)) m)
    (hm : Within k m) :
    (Act.ofExcept missed >>= fun b => if b then down else up).wp (fun _ => Within (k + 1))
      (fun _ => Within (k + 1)) m := by
  rw [Act.wp_bind]
  refine ((Act.keeps_ofExcept missed).wp hm).mono (fun b m' hm' => ?_) fun _ _ h =>
    Nat.le_succ_of_le h
  split
  · exact hdown m' hm'
  · exact hup m' hm'

theorem wp_shrink_bind {rest : Unit → Act α (Memory α n) β}
    (hrest : ∀ u, (rest u).Keeps (Within (k + 1))) (m : Memory α n) (hm : Within k m) :
    (shrink prm >>= rest).wp (fun _ => Within (k + 1)) (fun _ => Within (k + 1)) m := by
  rw [shrink, Act.wp_bind, Act.wp_update]
  exact (hrest ()).wp (Nat.succ_le_succ hm)

omit [Scalar α] in
theorem wp_recover_bind {rest : Unit → Act α (Memory α n) β}
    (hrest : ∀ u, (rest u).Keeps (Within (k + 1))) (m : Memory α n) :
    (recover >>= rest).wp (fun _ => Within (k + 1)) (fun _ => Within (k + 1)) m := by
  rw [recover, Act.wp_bind, Act.wp_update]
  exact (hrest ()).wp (Nat.zero_le _)

theorem wp_updateSimple (hm : Within k m) : (updateSimple prm rho size).wp
    (fun _ => Within (k + 1)) (fun _ => Within (k + 1)) m := by
  have hexpand : (expandSimple prm rho size).Keeps (Within (n := n) (k + 1)) := by
    refine (Act.keeps_ofExcept _).bind fun good => Act.keeps_read.bind fun m => ?_
    exact Act.Keeps.ite (keeps_expand fun _ _ => rfl) (Act.keeps_pure _)
  unfold updateSimple
  refine wp_rule (wp_shrink_bind fun _ => ?_) (fun m _ => wp_recover_bind (fun _ => ?_) m) hm
  all_goals
    refine (Act.keeps_ofExcept _).bind fun accepted => Act.Keeps.ite ?_ (Act.keeps_pure _)
    exact hexpand.bind fun _ => Act.keeps_pure _

theorem wp_updateNlsolve (hm : Within k m) : (updateNlsolve prm rho size).wp
    (fun _ => Within (k + 1)) (fun _ => Within (k + 1)) m := by
  have hexpand : (expandNlsolve prm rho size).Keeps (Within (n := n) (k + 1)) := by
    refine (Act.keeps_ofExcept _).bind fun good => ?_
    refine Act.Keeps.ite (keeps_expand fun _ _ => rfl) (Act.Keeps.ite ?_ (Act.keeps_pure _))
    exact keeps_expand fun _ _ => rfl
  unfold updateNlsolve
  refine wp_rule (wp_shrink_bind fun _ => Act.keeps_ofExcept _) (fun m _ => ?_) hm
  exact wp_recover_bind (fun _ => hexpand.bind fun _ => Act.keeps_ofExcept _) m

theorem wp_updateFan {fu : Vec α n} (hm : Within k m) : (updateFan prm rho fu).wp
    (fun _ => Within (k + 1)) (fun _ => Within (k + 1)) m := by
  have hrest : ∀ u : Unit, (do
      let accepted ← accepts prm rho
      if !accepted then Act.update fun m => { m with radius := fanRadius m.mu fu }
      pure accepted : Act α (Memory α n) Bool).Keeps (Within (k + 1)) := by
    intro _
    refine (Act.keeps_ofExcept _).bind fun accepted => Act.Keeps.ite ?_ (Act.keeps_pure _)
    exact Act.Keeps.bind (fun _ h => h) fun _ => Act.keeps_pure _
  have hscale : (scaleFan prm rho).wp (fun _ => Within (k + 1)) (fun _ => Within (k + 1)) m := by
    unfold scaleFan
    refine wp_rule (fun m hm => Nat.succ_le_succ hm) (fun m _ => ?_) hm
    refine wp_recover_bind (fun _ => (Act.keeps_ofExcept _).bind fun good => ?_) m
    exact Act.Keeps.ite (keeps_expand fun _ _ => rfl) (Act.keeps_pure _)
  unfold updateFan
  rw [Act.wp_bind]
  exact hscale.mono (fun u m' hm' => (hrest u).wp hm') fun _ _ h => h

theorem keeps_adjustBastin : (adjustBastin prm rho size).Keeps (Within (n := n) k) := by
  refine (Act.keeps_ofExcept _).bind fun good => Act.Keeps.ite (keeps_expand fun _ _ => rfl) ?_
  refine (Act.keeps_ofExcept _).bind fun bad => Act.Keeps.ite ?_ (Act.keeps_pure _)
  exact fun _ h => h

end Rules

structure Going (k : Nat) (z : Iteration α n (Memory α n)) : Prop where
  running : z.terminated = false
  within : Within k z.memory

variable {rho : α} {s trial fuTrial : Vec α n} {z : Iteration α n (Memory α n)}

omit [Scalar α] in
theorem wp_remembering {x : Act α (Memory α n) β} (hz : z.terminated = false)
    (hx : x.wp (fun _ => Within k) (fun _ => Within k) z.memory) :
    (remembering x).wp (fun _ => Going k) (fun _ => Going k) z := by
  rw [remembering, Act.wp_zoom]
  exact hx.mono (fun _ m hm => ⟨hz, hm⟩) fun _ m hm => ⟨hz, hm⟩

omit [Scalar α] in
theorem keeps_remembering_going {x : Act α (Memory α n) β} (hx : x.Keeps (Within k)) :
    (remembering x).Keeps (Going k) :=
  hx.zoom (fun _ hz => hz.within) fun _ _ hz hm => ⟨hz.running, hm⟩

omit [Scalar α] in
theorem keeps_counting_going (x : Act α Stats β) : (counting x).Keeps (Going (n := n) k) :=
  Act.keeps_zoom x fun _ _ hz => ⟨hz.running, hz.within⟩

/-- A rejected trial counts as a shrinking step and moves nothing, an accepted one ends the row. -/
theorem wp_updateBastin (hz : Going k z) : (updateBastin prm l rho s trial fuTrial).wp
    (fun accepted z' => Going (k + 1) z' ∧
      if accepted then Going 0 z' else z'.u = z.u ∧ z'.fu = z.fu)
    (fun _ => Going (k + 1)) z := by
  have hkept : (Act.ofExcept (prm.stepThreshold.keptBy rho) :
      Act α (Iteration α n (Memory α n)) Bool).Keeps
        fun z' => Going k z' ∧ z'.u = z.u ∧ z'.fu = z.fu := Act.keeps_ofExcept _
  have hadjust : ∀ (J : Mat α n n) ratio, (remembering (do
      Act.update fun m => { m with jacobian := some J }
      adjustBastin prm ratio s.euclid)).Keeps (Going 0) := fun J ratio =>
    keeps_remembering_going (Act.Keeps.bind (fun _ hm => hm) fun _ => keeps_adjustBastin)
  have hraises : ∀ {z' : Iteration α n (Memory α n)}, Going 0 z' → Going (k + 1) z' :=
    fun h => ⟨h.running, Nat.le_trans h.within (Nat.zero_le _)⟩
  rw [updateBastin, Act.wp_bind]
  refine (hkept.wp ⟨hz, rfl, rfl⟩).mono (fun kept z' hz' => ?_) fun _ _ h =>
    ⟨h.1.running, Nat.le_succ_of_le h.1.within⟩
  obtain ⟨hz', hstays⟩ := hz'
  split
  · rw [Act.wp_bind, remembering, Act.wp_zoom, shrink, Act.wp_update]
    exact ⟨⟨hz'.running, Nat.succ_le_succ hz'.within⟩, hstays⟩
  · rw [Act.wp_bind, remembering, Act.wp_zoom, recover, Act.wp_update, Act.wp_bind, Act.wp_read,
      Act.wp_bind, Iteration.adopt, Act.wp_update, Act.wp_bind, Act.wp_read, Act.wp_bind]
    refine ((keeps_counting_going (k := 0) _).wp ?_).mono (fun J x hx => ?_)
      fun _ _ h => hraises h
    · exact ⟨hz'.running, Nat.le_refl 0⟩
    · rw [Act.wp_bind]
      exact ((hadjust J _).wp hx).mono (fun _ _ h => ⟨hraises h, h⟩) fun _ _ h => hraises h

/-- One step shrinks the radius once at most. -/
theorem wp_update (hz : Going k z) : (update scheme prm l rho s trial fuTrial).wp
    (fun accepted z' => Going (k + 1) z' ∧ (scheme = .bastin →
      if accepted then Going 0 z' else z'.u = z.u ∧ z'.fu = z.fu))
    (fun _ => Going (k + 1)) z := by
  cases scheme with
  | simple =>
    exact (wp_remembering hz.running (wp_updateSimple hz.within)).mono (fun _ _ h => ⟨h, nofun⟩)
      fun _ _ h => h
  | nlsolve =>
    exact (wp_remembering hz.running (wp_updateNlsolve hz.within)).mono (fun _ _ h => ⟨h, nofun⟩)
      fun _ _ h => h
  | bastin => exact (wp_updateBastin hz).mono (fun _ _ h => ⟨h.1, fun _ => h.2⟩) fun _ _ h => h
  | fan =>
    rw [update, Act.wp_bind, Act.wp_read]
    exact (wp_remembering hz.running (wp_updateFan hz.within)).mono (fun _ _ h => ⟨h, nofun⟩)
      fun _ _ h => h

omit [Scalar α] in
/-- The end of a row of shrinking steps exhausts no limit. -/
theorem not_exhausted (hm : Within 0 m) : exhausted prm m = false := by
  have hs : m.shrinks = 0 := Nat.le_zero.mp hm
  unfold exhausted
  cases prm.maxShrinkTimes <;> simp [hs]

omit [Scalar α] in
/-- A row of shrinking steps that is not too long is followed by one that is not, or that is too
long by one. -/
theorem steady_or_exhausted (hs : Steady prm m) {m' : Memory α n} (h : Within (m.shrinks + 1) m') :
    exhausted prm m' = false ∧ Steady prm m' ∨
      exhausted prm m' = true ∧ ∃ k, prm.maxShrinkTimes = some k ∧ m'.shrinks = k + 1 := by
  unfold exhausted Steady Within at *
  cases hk : prm.maxShrinkTimes with
  | none => exact .inl ⟨rfl, nofun⟩
  | some k =>
    have hle := hs k hk
    by_cases hlt : k < m'.shrinks
    · exact .inr ⟨by simpa using hlt, k, rfl, by omega⟩
    · refine .inl ⟨by simpa using hlt, fun j hj => ?_⟩
      obtain rfl := Option.some.inj hj
      exact Nat.le_of_not_lt hlt

variable (m) in
theorem settle_shrinks (fu : Vec α n) : (settle scheme fu m).shrinks = m.shrinks := by
  cases scheme <;> rfl

omit [Scalar α] in
/-- A row of shrinking steps that is too long ends the run. -/
theorem wp_exhausted {post : Unit → Iteration α n (Memory α n) → Prop}
    {broken : Fault α → Iteration α n (Memory α n) → Prop} :
    (if exhausted prm z.memory then do
      Act.log (.shrankRepeatedly (name scheme) z.memory.shrinks)
      Iteration.terminate (name scheme) o.norm .shrinkThresholdExceeded
    else pure () : Act α (Iteration α n (Memory α n)) Unit).wp post broken z ↔
      if exhausted prm z.memory then
        post () { z with code := .shrinkThresholdExceeded, stopped := true }
      else post () z := by
  split
  · rw [Act.wp_bind, Act.wp_log, wp_terminate]
  · exact Act.wp_pure _

omit [Scalar α] in
/-- What holds before the test for such a row holds after it, if ending the run does not matter. -/
theorem wp_exhausted_of {post : Unit → Iteration α n (Memory α n) → Prop}
    {broken : Fault α → Iteration α n (Memory α n) → Prop} (h : post () z)
    (hended : post () z → post () { z with code := .shrinkThresholdExceeded, stopped := true }) :
    (if exhausted prm z.memory then do
      Act.log (.shrankRepeatedly (name scheme) z.memory.shrinks)
      Iteration.terminate (name scheme) o.norm .shrinkThresholdExceeded
    else pure () : Act α (Iteration α n (Memory α n)) Unit).wp post broken z := by
  rw [wp_exhausted]
  split
  · exact hended h
  · exact h

theorem wp_attemptStep {J : Mat α n n} (hrun : z.terminated = false) (hz : Steady prm z.memory) :
    (attemptStep scheme prm l o J s).wp (fun _ => Onward (Steady prm) fun x =>
      x.code = .shrinkThresholdExceeded ∧ (∃ k, prm.maxShrinkTimes = some k ∧
        x.memory.shrinks = k + 1) ∧ (scheme = .bastin → x.u = z.u ∧ x.fu = z.fu))
      (fun _ _ => True) z := by
  have hend : ∀ x : Iteration α n (Memory α n), Going (z.memory.shrinks + 1) x →
      (scheme = .bastin → exhausted prm x.memory = true → x.u = z.u ∧ x.fu = z.fu) →
      (if exhausted prm x.memory then do
        Act.log (.shrankRepeatedly (name scheme) x.memory.shrinks)
        Iteration.terminate (name scheme) o.norm .shrinkThresholdExceeded
      else pure () : Act α (Iteration α n (Memory α n)) Unit).wp
        (fun _ => Onward (Steady prm) fun x => x.code = .shrinkThresholdExceeded ∧
          (∃ k, prm.maxShrinkTimes = some k ∧ x.memory.shrinks = k + 1) ∧
          (scheme = .bastin → x.u = z.u ∧ x.fu = z.fu)) (fun _ _ => True) x := by
    intro x hx hstays
    rw [wp_exhausted]
    obtain ⟨he, hsteady⟩ | ⟨he, hk⟩ := steady_or_exhausted hz hx.within
    · rw [he]
      exact .inl ⟨hx.running, hsteady⟩
    · rw [he, if_pos rfl]
      exact .inr ⟨rfl, rfl, hk, fun hs => hstays hs he⟩
  have hevaluate : (evaluate (z.u + s)).Keeps
      fun x => Going (n := n) z.memory.shrinks x ∧ x.u = z.u ∧ x.fu = z.fu :=
    Act.Keeps.bind (fun _ h => ⟨⟨h.1.running, h.1.within⟩, h.2⟩) fun _ =>
      Act.keeps_read.bind fun _ => Act.keeps_ofExcept _
  rw [attemptStep, Act.wp_bind, Act.wp_read, Act.wp_bind]
  refine (hevaluate.wp ⟨⟨hrun, Nat.le_refl _⟩, rfl, rfl⟩).mono (fun fuTrial x hx => ?_)
    fun _ _ _ => trivial
  obtain ⟨hx, hu, hfu⟩ := hx
  rw [Act.wp_bind]
  refine (wp_update hx).mono (fun accepted x' hx' => ?_) fun _ _ _ => trivial
  obtain ⟨hx', hbastin⟩ := hx'
  split
  · rename_i haccepted
    simp only [Act.wp_bind, Iteration.adopt, Act.wp_update, remembering, Act.wp_zoom, Act.wp_read]
    refine hend { x' with u := z.u + s, fu := fuTrial, memory := settle scheme fuTrial x'.memory }
      ⟨hx'.running, ?_⟩ fun hs he => ?_
    · rw [Within, settle_shrinks]
      exact hx'.within
    · have hrow : Going 0 x' := by simpa [haccepted] using hbastin hs
      have hwithin : Within 0 (settle scheme fuTrial x'.memory) := by
        rw [Within, settle_shrinks]
        exact hrow.within
      rw [not_exhausted hwithin] at he
      cases he
  · rename_i hrejected
    rw [Act.wp_bind, Act.wp_read]
    refine hend x' hx' fun hs _ => ?_
    have hstays : x'.u = x.u ∧ x'.fu = x.fu := by simpa [hrejected] using hbastin hs
    exact ⟨hstays.1.trans hu, hstays.2.trans hfu⟩

structure Poised (y z : Iteration α n (Memory α n)) : Prop extends Still y z where
  radius : z.memory.radius = y.memory.radius
  shrinks : z.memory.shrinks = y.memory.shrinks

structure Blind (P : Iteration α n (Memory α n) → Prop) : Prop where
  work : ∀ z s, P z → P { z with stats := s }
  jacobian : ∀ z J, P z → P { z with memory := { z.memory with jacobian := J } }

section Blind

variable {P : Iteration α n (Memory α n) → Prop}

omit [Scalar α] in
theorem Blind.keeps_counting (h : Blind P) (x : Act α Stats β) : (counting x).Keeps P :=
  Act.keeps_zoom x fun s z hz => h.work z s hz

theorem Blind.keeps_jacobian (h : Blind P) : (TrustRegion.jacobian l).Keeps P := by
  unfold TrustRegion.jacobian
  refine Act.keeps_read.bind fun it => ?_
  split
  · exact Act.keeps_pure _
  · refine (h.keeps_counting _).bind fun J => Act.Keeps.bind (fun z hz => ?_) fun _ =>
      Act.keeps_pure _
    exact h.jacobian z (some J) hz

theorem Blind.keeps_newtonStep (h : Blind P) (J : Mat α n n) : (newtonStep l J).Keeps P := by
  unfold newtonStep
  refine Act.keeps_read.bind fun it => ?_
  refine (h.keeps_counting _).attempt.bind fun r => ?_
  split
  · exact Act.keeps_pure _
  · exact Act.Keeps.ite (Act.keeps_pure _) (Act.keeps_raise _)

end Blind

omit [Scalar α] in
theorem blind_poised : Blind (Poised y) where
  work _ s hz := ⟨hz.worked s _, hz.radius, hz.shrinks⟩
  jacobian _ _ hz := ⟨hz.worked _ _, hz.radius, hz.shrinks⟩

theorem keeps_jacobian_poised : (jacobian l).Keeps (Poised y) := blind_poised.keeps_jacobian

theorem keeps_newtonStep_poised (J : Mat α n n) : (newtonStep l J).Keeps (Poised y) :=
  blind_poised.keeps_newtonStep J

/-- A step goes on within the limit, or ends the run. -/
theorem wp_advance (hrun : y.terminated = false) (hy : Steady prm y.memory) :
    (advance scheme prm l o).wp (fun _ => Onward (Steady prm) (Quits scheme prm l y))
      (fun _ _ => True) y := by
  rw [advance, Act.wp_bind]
  refine (keeps_jacobian_poised.wp_returns ⟨.refl y, rfl, rfl⟩).mono (fun J z hz => ?_)
    fun _ _ _ => trivial
  obtain ⟨hJ, hz⟩ := hz
  rw [Act.wp_bind]
  refine ((keeps_newtonStep_poised J).wp_returns hz).mono (fun newton z' hz' => ?_)
    fun _ _ _ => trivial
  obtain ⟨hnewton, hz'⟩ := hz'
  rw [Act.wp_bind, Act.wp_read, hz'.fu, hz'.radius, Act.wp_bind]
  refine wp_doglegStep ?_ fun _ _ => trivial
  split
  · have hsteady : Steady prm z'.memory := fun k hk => hz'.shrinks ▸ hy k hk
    refine (wp_attemptStep (hz'.terminated.trans hrun) hsteady).mono (fun _ x hx => ?_)
      fun _ _ _ => trivial
    refine hx.imp_right fun hx => ?_
    obtain ⟨hstopped, hc, ⟨k, hk, hs⟩, hstays⟩ := hx
    exact ⟨hstopped, .shrunk hc hk hs fun hb =>
      ⟨(hstays hb).1.trans hz'.u, (hstays hb).2.trans hz'.fu⟩⟩
  · rename_i hinfinite
    rw [wp_terminate]
    refine .inr ⟨rfl, .astray rfl hz'.u hz'.fu ⟨J, newton, z, z', hJ, hnewton, ?_⟩⟩
    simpa using hinfinite

end TrustRegion

namespace Secant

variable {ε : Type} (limit : Nat)

def Steady (m : Memory ε) : Prop := m.resets ≤ limit

structure Quits (x : Iteration α n (Memory ε)) : Prop where
  code : x.code = .failure
  resets : x.memory.resets = limit + 1

variable {plan : Plan α ε} {y : Iteration α n (Memory ε)}

omit [Scalar α] in
/-- Whether the run goes on is told; an estimate that was reset is within the limit. -/
theorem wp_registerReset (hrun : y.terminated = false) (hy : Steady plan.limit y.memory) :
    (registerReset plan).wp (fun goOn x => Onward (Steady plan.limit) (Quits plan.limit) x ∧
      (goOn = true → x.terminated = false ∧ Steady plan.limit x.memory)) (fun _ _ => True) y := by
  rw [registerReset, Act.wp_bind, Act.wp_update, Act.wp_bind, Act.wp_read]
  split
  · rename_i hlt
    rw [Act.wp_bind, wp_terminate]
    exact ⟨.inr ⟨rfl, rfl, Nat.le_antisymm (Nat.succ_le_succ hy) hlt⟩, nofun⟩
  · rename_i hle
    rw [Act.wp_bind, Act.wp_log, Act.wp_bind, Act.wp_update]
    have hgo : y.terminated = false ∧ y.memory.resets + 1 ≤ plan.limit :=
      ⟨hrun, Nat.le_of_not_lt hle⟩
    exact ⟨.inl hgo, fun _ => hgo⟩

omit [Scalar α] in
theorem wp_discardedReset (hrun : y.terminated = false) (hy : Steady plan.limit y.memory) :
    (discard (registerReset plan)).wp (fun _ => Onward (Steady plan.limit) (Quits plan.limit))
      (fun _ _ => True) y := by
  change (registerReset plan >>= fun _ => pure PUnit.unit).wp _ _ y
  rw [Act.wp_bind]
  exact (wp_registerReset hrun hy).mono (fun _ _ h => h.1) fun _ _ _ => trivial

theorem wp_follow {delta : Vec α n} {updated : ε → Vec α n → Vec α n → Option ε}
    (hrun : y.terminated = false) (hy : Steady plan.limit y.memory) :
    (follow plan delta updated).wp (fun _ => Onward (Steady plan.limit) (Quits plan.limit))
      (fun _ _ => True) y := by
  rw [follow, Act.wp_bind, Act.wp_read]
  split
  · rw [Act.wp_bind]
    refine ((keeps_moveTo_running _).wp ⟨hrun, hy⟩).mono (fun _ z hz => ?_)
      fun _ _ _ => trivial
    rw [Act.wp_bind, Act.wp_read]
    split
    · exact .inl hz
    · exact wp_discardedReset hz.1 hz.2
  · exact wp_discardedReset hrun hy

end Secant

theorem Klement.wp_advance {limit : Nat} {o : Options α}
    {y : Iteration α n (Secant.Memory (Vec α n))} (hrun : y.terminated = false)
    (hy : Secant.Steady limit y.memory) : (advance limit o).wp
      (fun _ => Onward (Secant.Steady limit) (Secant.Quits limit)) (fun _ _ => True) y := by
  have hpropose : ∀ z : Iteration α n (Secant.Memory (Vec α n)), z.terminated = false →
      Secant.Steady limit z.memory → (propose limit o).wp
        (fun _ => Onward (Secant.Steady limit) (Secant.Quits limit)) (fun _ _ => True) z := by
    intro z hrun hz
    have hz' : Secant.Steady (plan limit o n).limit z.memory := hz
    rw [propose, Act.wp_bind, Act.wp_read]
    exact Secant.wp_follow hrun hz'
  rw [advance, Act.wp_bind, Act.wp_read]
  split
  · rw [Act.wp_bind]
    have hy' : Secant.Steady (plan limit o n).limit y.memory := hy
    refine (Secant.wp_registerReset hrun hy').mono (fun goOn z hz => ?_) fun _ _ _ => trivial
    obtain ⟨honward, hgo⟩ := hz
    cases goOn with
    | true => exact hpropose z (hgo rfl).1 (hgo rfl).2
    | false => exact honward
  · exact hpropose y hrun hy

theorem Broyden.wp_advance {limit : Nat} {o : Options α}
    {y : Iteration α n (Secant.Memory (Mat α n n))} (hrun : y.terminated = false)
    (hy : Secant.Steady limit y.memory) : (advance limit o).wp
      (fun _ => Onward (Secant.Steady limit) (Secant.Quits limit)) (fun _ _ => True) y := by
  have hy' : Secant.Steady (plan limit o n).limit y.memory := hy
  rw [advance, Act.wp_bind, Act.wp_read]
  exact Secant.wp_follow hrun hy'

namespace Algorithm

def Capped : Algorithm α → Prop
  | .newton search _ => ∀ prm, search = some prm → ∀ e, prm.maxDelta = .error e →
    e.kind ≠ .convergence
  | _ => True

def Steady : (a : Algorithm α) → a.Memory n → Prop
  | .newton .., _ => True
  | .trustRegion _ prm _, m => TrustRegion.Steady prm m
  | .klement limit, m => Secant.Steady limit m
  | .broyden limit, m => Secant.Steady limit m
  | .replay _, _ => True

/-- How a step can end the run; a replayed script may end it in any way. -/
def Quits (o : Options α) : (a : Algorithm α) → (y x : Iteration α n (a.Memory n)) → Prop
  | .newton search l, y, x => Newton.Quits search l o y x
  | .trustRegion scheme prm l, y, x => TrustRegion.Quits scheme prm l y x
  | .klement limit, _, x => Secant.Quits limit x
  | .broyden limit, _, x => Secant.Quits limit x
  | .replay _, _, _ => True

theorem steady_restart (a : Algorithm α) (o : Options α) (u fu : Vec α n) :
    a.Steady ((a.method o n).restart u fu) := by
  cases a with
  | newton search l => trivial
  | trustRegion scheme prm l =>
    intro k _
    cases scheme <;> exact Nat.zero_le k
  | klement limit => exact Nat.zero_le limit
  | broyden limit => exact Nat.zero_le limit
  | replay script => trivial

/-- A step of a method that solves goes on, or ends the run in one of the ways of the method. -/
theorem wp_advance {a : Algorithm α} (ha : a.BuiltIn) (hcap : a.Capped) (o : Options α)
    {y : Iteration α n (a.Memory n)} (hrun : y.terminated = false) (hy : a.Steady y.memory) :
    (a.method o n).advance.wp (fun _ => Onward a.Steady (a.Quits o y)) (fun _ _ => True) y := by
  cases a with
  | newton search l => exact Newton.wp_advance hcap hrun
  | trustRegion scheme prm l => exact TrustRegion.wp_advance hrun hy
  | klement limit => exact Klement.wp_advance hrun hy
  | broyden limit => exact Broyden.wp_advance hrun hy
  | replay script => exact ha.elim

end Algorithm

end Rootfinder
