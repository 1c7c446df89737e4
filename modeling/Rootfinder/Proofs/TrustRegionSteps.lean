import Rootfinder.Proofs.Dogleg
import Rootfinder.Proofs.RunDecomposition

namespace Rootfinder.TrustRegion

open Iteration

variable {α : Type} {n : Nat}

structure Region (α : Type) where
  radius : α
  maxRadius : α
  mu : α
  shrinks : Nat

def Memory.region (m : Memory α n) : Region α := ⟨m.radius, m.maxRadius, m.mu, m.shrinks⟩

variable [Scalar α]

section Relations

variable (scheme : Scheme) (prm : Params α) (l : Linearization α)

/-- The Jacobian at an iterate, and the step that is found with it. -/
def Finds (y : Iteration α n (Memory α n)) (J : Mat α n n) (s : Vec α n) : Prop :=
  ∃ z z', (jacobian l).Returns y J z ∧ (search l J).Returns z s z'

/-- The trial that a step from an iterate makes: a finite step that is found there, and the residual
where it leads to. -/
structure Tries (y : Iteration α n (Memory α n)) (J : Mat α n n) (s r : Vec α n) : Prop where
  found : Finds l y J s
  finite : s.allFinite = true
  value : y.problem.residual (y.u + s) = .ok r

/-- What the bounds say of a ratio: whether the step shrinks the region, and whether its trial is
accepted. Under Bastin's rule the one is the opposite of the other. -/
def Judges (rho : α) (shrinks accepted : Bool) : Prop :=
  match scheme with
  | .bastin => prm.stepThreshold.keptBy rho = .ok shrinks ∧ accepted = !shrinks
  | _ => prm.shrinkThreshold.missedBy rho = .ok shrinks ∧
    prm.stepThreshold.exceededBy rho = .ok accepted

def counted (shrinks : Bool) (m : Region α) : Region α :=
  match shrinks, scheme with
  | false, _ => { m with shrinks := 0 }
  | true, .fan => { m with mu := m.mu * prm.shrinkFactor, shrinks := m.shrinks + 1 }
  | true, _ => { m with radius := m.radius * prm.shrinkFactor, shrinks := m.shrinks + 1 }

/-- What a rule changes besides, by the expansion factor or, after an accepted step under Bastin's
rule, by the shrink factor. -/
inductive Resizes (rho size : α) : Scheme → Bool → Bool → Region α → Region α → Prop where
  | stays {scheme : Scheme} {shrinks accepted : Bool} (m : Region α) :
    Resizes rho size scheme shrinks accepted m m
  | simple {shrinks : Bool} {factor : α} (m : Region α) (hf : prm.expandFactor = .ok factor)
    (hrho : prm.expandThreshold.exceededBy rho = .ok true) :
    Resizes rho size .simple shrinks true m
      { m with radius := Scalar.smaller (factor * m.radius) m.maxRadius }
  | nlsolve {accepted : Bool} {factor : α} (m : Region α) (hf : prm.expandFactor = .ok factor)
    (hrho : prm.expandThreshold.attainedBy rho = .ok true) :
    Resizes rho size .nlsolve false accepted m { m with radius := factor * size }
  | nlsolveFair {accepted : Bool} {factor : α} (m : Region α)
    (hf : prm.expandFactor = .ok factor) (hrho : 0.5 ≤ rho) :
    Resizes rho size .nlsolve false accepted m
      { m with radius := Scalar.larger m.radius (factor * size) }
  | fan {accepted : Bool} {factor : α} (m : Region α) (hf : prm.expandFactor = .ok factor)
    (hrho : prm.expandThreshold.exceededBy rho = .ok true) :
    Resizes rho size .fan false accepted m { m with mu := Scalar.smaller (factor * m.mu) 1e8 }
  | bastin {factor : α} (m : Region α) (hf : prm.expandFactor = .ok factor) :
    Resizes rho size .bastin false true m
      { m with radius := Scalar.larger (factor * size) m.radius }
  | bastinBack (m : Region α) :
    Resizes rho size .bastin false true m
      { m with radius := Scalar.larger (prm.shrinkFactor * m.radius) Scalar.tiny }

def placed (fu : Vec α n) (m : Region α) : Region α :=
  match scheme with
  | .fan => { m with radius := fanRadius m.mu fu }
  | _ => m

structure Rules (rho size : α) (shrinks accepted : Bool) (m m' : Region α) : Prop where
  judges : Judges scheme prm rho shrinks accepted
  resizes : Resizes prm rho size scheme shrinks accepted (counted scheme prm shrinks m) m'

end Relations

variable {scheme : Scheme} {prm : Params α} {l : Linearization α} {o : Options α} {rho size : α}

section Rules

variable {m : Memory α n} {fu : Vec α n}

omit [Scalar α] in
/-- A verdict that is known is the one that a rule goes on with. -/
theorem wp_verdict {σ β : Type} {verdict : Except (Fault α) Bool} {f : Bool → Act α σ β}
    {post : β → σ → Prop} {s : σ} (h : ∀ b, verdict = .ok b → (f b).wp post (fun _ _ => True) s) :
    (Act.ofExcept verdict >>= f).wp post (fun _ _ => True) s := by
  rw [Act.wp_bind]
  cases hv : verdict with
  | error e => trivial
  | ok b => exact h b hv

omit [Scalar α] in
theorem wp_expand {f : α → Memory α n → Memory α n} {post : Unit → Memory α n → Prop}
    (h : ∀ factor, prm.expandFactor = .ok factor → post () (f factor m)) :
    (expand prm f).wp post (fun _ _ => True) m := by
  rw [expand, Act.wp_bind]
  cases hf : prm.expandFactor with
  | error e => trivial
  | ok factor => exact h factor hf

theorem wp_expandSimple : (expandSimple prm rho size).wp
    (fun _ m' => ∀ shrinks, Resizes prm rho size .simple shrinks true m.region m'.region)
    (fun _ _ => True) m := by
  rw [expandSimple]
  refine wp_verdict fun good hgood => ?_
  rw [Act.wp_bind, Act.wp_read]
  split
  · rename_i h
    obtain rfl := ((Bool.and_eq_true _ _).mp h).1
    exact wp_expand fun factor hf shrinks => .simple m.region hf hgood
  · exact fun shrinks => .stays m.region

theorem wp_updateSimple_rules : (updateSimple prm rho size).wp
    (fun accepted m' => ∃ shrinks, Rules .simple prm rho size shrinks accepted m.region m'.region)
    (fun _ _ => True) m := by
  have hrest : ∀ (shrinks : Bool) (m₁ : Memory α n),
      prm.shrinkThreshold.missedBy rho = .ok shrinks →
      m₁.region = counted .simple prm shrinks m.region →
      (accepts prm rho >>= fun accepted =>
        if accepted then expandSimple prm rho size >>= fun _ => pure accepted
        else pure accepted : Act α (Memory α n) Bool).wp
        (fun accepted m' => ∃ shrinks,
          Rules .simple prm rho size shrinks accepted m.region m'.region) (fun _ _ => True) m₁ := by
    intro shrinks m₁ hmissed hm₁
    refine wp_verdict fun accepted hstep => ?_
    cases accepted with
    | false => exact ⟨shrinks, ⟨hmissed, hstep⟩, hm₁ ▸ .stays _⟩
    | true =>
      rw [if_pos rfl, Act.wp_bind]
      exact wp_expandSimple.mono
        (fun _ m' h => ⟨shrinks, ⟨hmissed, hstep⟩, hm₁ ▸ h shrinks⟩) fun _ _ h => h
  rw [updateSimple]
  refine wp_verdict fun shrinks hmissed => ?_
  cases shrinks with
  | true =>
    rw [if_pos rfl, shrink, Act.wp_bind, Act.wp_update]
    exact hrest true _ hmissed rfl
  | false =>
    rw [if_neg Bool.false_ne_true, recover, Act.wp_bind, Act.wp_update]
    exact hrest false _ hmissed rfl

theorem wp_expandNlsolve : (expandNlsolve prm rho size).wp
    (fun _ m' => ∀ accepted, Resizes prm rho size .nlsolve false accepted m.region m'.region)
    (fun _ _ => True) m := by
  rw [expandNlsolve]
  refine wp_verdict fun good hgood => ?_
  cases good with
  | true =>
    rw [if_pos rfl]
    exact wp_expand fun factor hf accepted => .nlsolve m.region hf hgood
  | false =>
    rw [if_neg Bool.false_ne_true]
    by_cases hfair : 0.5 ≤ rho
    · rw [if_pos hfair]
      exact wp_expand fun factor hf accepted => .nlsolveFair m.region hf hfair
    · rw [if_neg hfair]
      exact fun accepted => .stays m.region

theorem wp_updateNlsolve_rules : (updateNlsolve prm rho size).wp
    (fun accepted m' => ∃ shrinks, Rules .nlsolve prm rho size shrinks accepted m.region m'.region)
    (fun _ _ => True) m := by
  have haccepts : ∀ (shrinks : Bool) (m₁ : Memory α n),
      prm.shrinkThreshold.missedBy rho = .ok shrinks →
      (∀ accepted, Resizes prm rho size .nlsolve shrinks accepted
        (counted .nlsolve prm shrinks m.region) m₁.region) →
      (accepts prm rho).wp (fun accepted m' => ∃ shrinks,
        Rules .nlsolve prm rho size shrinks accepted m.region m'.region) (fun _ _ => True) m₁ := by
    intro shrinks m₁ hmissed hm₁
    rw [accepts]
    cases hstep : prm.stepThreshold.exceededBy rho with
    | error e => trivial
    | ok accepted => exact ⟨shrinks, ⟨hmissed, hstep⟩, hm₁ accepted⟩
  rw [updateNlsolve]
  refine wp_verdict fun shrinks hmissed => ?_
  cases shrinks with
  | true =>
    rw [if_pos rfl, shrink, Act.wp_bind, Act.wp_update]
    exact haccepts true _ hmissed fun _ => .stays _
  | false =>
    rw [if_neg Bool.false_ne_true, recover, Act.wp_bind, Act.wp_update, Act.wp_bind]
    exact wp_expandNlsolve.mono (fun _ m₁ h => haccepts false m₁ hmissed h) fun _ _ h => h

variable (size) in
/-- Before Fan's radius is set, `mu` has been scaled. -/
theorem wp_scaleFan : (scaleFan prm rho).wp
    (fun _ m' => ∃ shrinks, prm.shrinkThreshold.missedBy rho = .ok shrinks ∧ ∀ accepted,
      Resizes prm rho size .fan shrinks accepted (counted .fan prm shrinks m.region) m'.region)
    (fun _ _ => True) m := by
  rw [scaleFan]
  refine wp_verdict fun shrinks hmissed => ?_
  cases shrinks with
  | true => exact ⟨true, hmissed, fun _ => .stays _⟩
  | false =>
    rw [if_neg Bool.false_ne_true, recover, Act.wp_bind, Act.wp_update]
    refine wp_verdict fun good hgood => ?_
    cases good with
    | true =>
      rw [if_pos rfl]
      exact wp_expand fun factor hf => ⟨false, hmissed, fun _ => .fan _ hf hgood⟩
    | false => exact ⟨false, hmissed, fun _ => .stays _⟩

theorem wp_updateFan_rules : (updateFan prm rho fu).wp
    (fun accepted m' => ∃ shrinks m₁, Rules .fan prm rho size shrinks accepted m.region m₁ ∧
      m'.region = if accepted then m₁ else placed .fan fu m₁) (fun _ _ => True) m := by
  rw [updateFan, Act.wp_bind]
  refine (wp_scaleFan size).mono (fun _ m₁ h => ?_) fun _ _ h => h
  obtain ⟨shrinks, hmissed, hm₁⟩ := h
  refine wp_verdict fun accepted hstep => ?_
  cases accepted with
  | true => exact ⟨shrinks, m₁.region, ⟨⟨hmissed, hstep⟩, hm₁ true⟩, rfl⟩
  | false => exact ⟨shrinks, m₁.region, ⟨⟨hmissed, hstep⟩, hm₁ false⟩, rfl⟩

variable (rho) in
theorem wp_adjustBastin {ratio : α} : (adjustBastin prm ratio size).wp
    (fun _ m' => Resizes prm rho size .bastin false true m.region m'.region)
    (fun _ _ => True) m := by
  rw [adjustBastin]
  refine wp_verdict fun good _ => ?_
  cases good with
  | true =>
    rw [if_pos rfl]
    exact wp_expand fun factor hf => .bastin m.region hf
  | false =>
    rw [if_neg Bool.false_ne_true]
    refine wp_verdict fun back _ => ?_
    cases back with
    | true => exact .bastinBack m.region
    | false => exact .stays m.region

end Rules

section Holding

variable {K : Option (Mat α n n)} {fu : Vec α n}

def Holds (K : Option (Mat α n n)) (m : Memory α n) : Prop := m.jacobian = K

omit [Scalar α] in
theorem keeps_expand_holds {f : α → Memory α n → Memory α n}
    (hf : ∀ factor m, (f factor m).jacobian = m.jacobian) : (expand prm f).Keeps (Holds K) :=
  (Act.keeps_ofExcept _).bind fun _ => Act.keeps_update fun m h => (hf _ m).trans h

theorem keeps_shrink_holds : (shrink prm : Act α (Memory α n) Unit).Keeps (Holds K) :=
  Act.keeps_update fun _ h => h

omit [Scalar α] in
theorem keeps_recover_holds : (recover : Act α (Memory α n) Unit).Keeps (Holds K) :=
  Act.keeps_update fun _ h => h

theorem keeps_updateSimple_holds : (updateSimple prm rho size).Keeps (Holds (n := n) K) := by
  have hexpand : (expandSimple prm rho size).Keeps (Holds (n := n) K) :=
    (Act.keeps_ofExcept _).bind fun _ => Act.keeps_read.bind fun _ =>
      Act.Keeps.ite (keeps_expand_holds fun _ _ => rfl) (Act.keeps_pure _)
  have hrest : ∀ _ : Unit, (accepts prm rho >>= fun accepted =>
      if accepted then expandSimple prm rho size >>= fun _ => pure accepted
      else pure accepted : Act α (Memory α n) Bool).Keeps (Holds K) := fun _ =>
    (Act.keeps_ofExcept _).bind fun _ =>
      Act.Keeps.ite (hexpand.bind fun _ => Act.keeps_pure _) (Act.keeps_pure _)
  exact (Act.keeps_ofExcept _).bind fun _ =>
    Act.Keeps.ite (keeps_shrink_holds.bind hrest) (keeps_recover_holds.bind hrest)

theorem keeps_updateNlsolve_holds : (updateNlsolve prm rho size).Keeps (Holds (n := n) K) := by
  have hexpand : (expandNlsolve prm rho size).Keeps (Holds (n := n) K) :=
    (Act.keeps_ofExcept _).bind fun _ => Act.Keeps.ite (keeps_expand_holds fun _ _ => rfl)
      (Act.Keeps.ite (keeps_expand_holds fun _ _ => rfl) (Act.keeps_pure _))
  unfold updateNlsolve
  refine (Act.keeps_ofExcept _).bind fun _ => Act.Keeps.ite ?_ ?_
  · exact keeps_shrink_holds.bind fun _ => Act.keeps_ofExcept _
  · exact keeps_recover_holds.bind fun _ => hexpand.bind fun _ => Act.keeps_ofExcept _

theorem keeps_updateFan_holds : (updateFan prm rho fu).Keeps (Holds K) := by
  have hscale : (scaleFan prm rho).Keeps (Holds (n := n) K) := by
    refine (Act.keeps_ofExcept _).bind fun _ => Act.Keeps.ite (Act.keeps_update fun _ h => h) ?_
    exact keeps_recover_holds.bind fun _ => (Act.keeps_ofExcept _).bind fun _ =>
      Act.Keeps.ite (keeps_expand_holds fun _ _ => rfl) (Act.keeps_pure _)
  refine hscale.bind fun _ => (Act.keeps_ofExcept _).bind fun _ => ?_
  refine Act.Keeps.ite (Act.Keeps.bind ?_ fun _ => Act.keeps_pure _) (Act.keeps_pure _)
  exact Act.keeps_update fun _ h => h

theorem keeps_adjustBastin_holds : (adjustBastin prm rho size).Keeps (Holds (n := n) K) :=
  (Act.keeps_ofExcept _).bind fun _ => Act.Keeps.ite (keeps_expand_holds fun _ _ => rfl)
    ((Act.keeps_ofExcept _).bind fun _ => Act.Keeps.ite (Act.keeps_update fun _ h => h)
      (Act.keeps_pure _))

end Holding

section Steps

variable {y z : Iteration α n (Memory α n)} {J : Mat α n n} {s r : Vec α n}

structure Prepared (y z : Iteration α n (Memory α n)) : Prop extends Still y z where
  region : z.memory.region = y.memory.region

omit [Scalar α] in
theorem blind_prepared : Blind (Prepared y) where
  work _ s hz := ⟨hz.worked s _, hz.region⟩
  jacobian _ _ hz := ⟨hz.worked _ _, hz.region⟩

theorem keeps_search_prepared (J : Mat α n n) : (search l J).Keeps (Prepared y) :=
  (blind_prepared.keeps_newtonStep J).bind fun _ => Act.keeps_read.bind fun _ =>
    Act.keeps_ofExcept _

/-- A step is found in one way only. -/
theorem Finds.unique {J' : Mat α n n} {s' : Vec α n} (h : Finds l y J s) (h' : Finds l y J' s') :
    J = J' ∧ s = s' := by
  obtain ⟨z, x, hJ, hs⟩ := h
  obtain ⟨z', x', hJ', hs'⟩ := h'
  obtain rfl := Except.ok.inj (hJ.1.symm.trans hJ'.1)
  obtain rfl := hJ.2.symm.trans hJ'.2
  exact ⟨rfl, Except.ok.inj (hs.1.symm.trans hs'.1)⟩

theorem Tries.unique {J' : Mat α n n} {s' r' : Vec α n} (h : Tries l y J s r)
    (h' : Tries l y J' s' r') : J = J' ∧ s = s' ∧ r = r' := by
  obtain ⟨rfl, rfl⟩ := h.found.unique h'.found
  exact ⟨rfl, rfl, Except.ok.inj (h.value.symm.trans h'.value)⟩

theorem Judges.unique {shrinks accepted shrinks' accepted' : Bool}
    (h : Judges scheme prm rho shrinks accepted) (h' : Judges scheme prm rho shrinks' accepted') :
    shrinks = shrinks' ∧ accepted = accepted' := by
  cases scheme
  case bastin =>
    obtain rfl := Except.ok.inj (h.1.symm.trans h'.1)
    exact ⟨rfl, h.2.trans h'.2.symm⟩
  all_goals exact ⟨Except.ok.inj (h.1.symm.trans h'.1), Except.ok.inj (h.2.symm.trans h'.2)⟩

variable (scheme prm l y) in
inductive Turn (x : Iteration α n (Memory α n)) : Prop where
  | strays {J : Mat α n n} {s : Vec α n} (hf : Finds l y J s) (hs : s.allFinite = false)
    (hu : x.u = y.u) (hfu : x.fu = y.fu) (hm : x.memory.region = y.memory.region)
    (hend : x.stopped = true ∧ x.code = .failure)
  | tries {J : Mat α n n} {s r : Vec α n} {shrinks accepted : Bool} {m : Region α}
    (ht : Tries l y J s r)
    (hr : Rules scheme prm (reductionRatio J y.fu s r) s.euclid shrinks accepted
      y.memory.region m)
    (hu : x.u = if accepted then y.u + s else y.u) (hfu : x.fu = if accepted then r else y.fu)
    (hm : x.memory.region = placed scheme x.fu m)
    (hend : if prm.maxShrinkTimes.any (· < m.shrinks) then
        x.stopped = true ∧ x.code = .shrinkThresholdExceeded
      else x.stopped = y.stopped ∧ x.code = y.code)

structure Ruled (scheme : Scheme) (prm : Params α) (y : Iteration α n (Memory α n)) (rho size : α)
    (accepted : Bool) (z : Iteration α n (Memory α n)) : Prop where
  rules : ∃ shrinks m, Rules scheme prm rho size shrinks accepted y.memory.region m ∧
    z.memory.region = if accepted then m else placed scheme y.fu m
  stays : accepted = false → z.u = y.u ∧ z.fu = y.fu
  code : z.code = y.code
  stopped : z.stopped = y.stopped

theorem placed_of_ne_fan (h : scheme ≠ .fan) (fu : Vec α n) (m : Region α) :
    placed scheme fu m = m := by
  cases scheme
  case fan => exact absurd rfl h
  all_goals rfl

theorem settle_region (fu : Vec α n) (m : Memory α n) :
    (settle scheme fu m).region = placed scheme fu m.region := by
  cases scheme <;> rfl

theorem placed_shrinks (fu : Vec α n) (m : Region α) :
    (placed scheme fu m).shrinks = m.shrinks := by
  cases scheme <;> rfl

/-- A rule that changes the memory only. -/
theorem wp_remembering_ruled {x : Act α (Memory α n) Bool} (hz : Prepared y z)
    (hx : x.wp (fun accepted m' => ∃ shrinks m,
      Rules scheme prm rho size shrinks accepted z.memory.region m ∧
        m'.region = if accepted then m else placed scheme y.fu m) (fun _ _ => True) z.memory) :
    (remembering x).wp (Ruled scheme prm y rho size) (fun _ _ => True) z := by
  rw [remembering, Act.wp_zoom]
  refine hx.mono (fun accepted m' h => ?_) fun _ _ _ => trivial
  rw [hz.region] at h
  exact ⟨h, fun _ => ⟨hz.u, hz.fu⟩, hz.code, hz.stopped⟩

theorem wp_updateBastin_ruled {trial : Vec α n} (hz : Prepared y z) :
    (updateBastin prm l rho s trial r).wp (Ruled .bastin prm y rho s.euclid)
      (fun _ _ => True) z := by
  rw [updateBastin]
  refine wp_verdict fun kept hkept => ?_
  cases kept with
  | true =>
    rw [if_pos rfl, Act.wp_bind, remembering, Act.wp_zoom, shrink, Act.wp_update, Act.wp_pure]
    refine ⟨⟨true, _, ⟨⟨hkept, rfl⟩, .stays _⟩, ?_⟩, fun _ => ⟨hz.u, hz.fu⟩, hz.code, hz.stopped⟩
    rw [← hz.region]
    rfl
  | false =>
    rw [if_neg Bool.false_ne_true, Act.wp_bind, remembering, Act.wp_zoom, recover, Act.wp_update,
      Act.wp_bind, Act.wp_read, Act.wp_bind, Iteration.adopt, Act.wp_update, Act.wp_bind,
      Act.wp_read, Act.wp_bind, Iteration.counting, Act.wp_zoom]
    refine Act.wp_of_forall _ (fun J st => ?_) fun _ _ => trivial
    rw [Act.wp_bind, remembering, Act.wp_zoom, Act.wp_bind, Act.wp_update]
    refine (wp_adjustBastin rho).mono (fun _ m' h => ?_) fun _ _ _ => trivial
    refine ⟨⟨false, m'.region, ⟨⟨hkept, rfl⟩, ?_⟩, rfl⟩, fun h => Bool.noConfusion h, hz.code,
      hz.stopped⟩
    rw [← hz.region]
    exact h

theorem wp_update_ruled {trial : Vec α n} (hz : Prepared y z) :
    (update scheme prm l rho s trial r).wp (Ruled scheme prm y rho s.euclid)
      (fun _ _ => True) z := by
  have hplain : ∀ {scheme : Scheme} {x : Act α (Memory α n) Bool}, scheme ≠ .fan →
      x.wp (fun accepted m' => ∃ shrinks,
        Rules scheme prm rho s.euclid shrinks accepted z.memory.region m'.region)
        (fun _ _ => True) z.memory →
      (remembering x).wp (Ruled scheme prm y rho s.euclid) (fun _ _ => True) z := by
    intro scheme x hscheme hx
    refine wp_remembering_ruled hz (hx.mono (fun accepted m' h => ?_) fun _ _ _ => trivial)
    obtain ⟨shrinks, h⟩ := h
    refine ⟨shrinks, m'.region, h, ?_⟩
    rw [placed_of_ne_fan hscheme, ite_self]
  cases scheme with
  | simple => exact hplain nofun wp_updateSimple_rules
  | nlsolve => exact hplain nofun wp_updateNlsolve_rules
  | bastin => exact wp_updateBastin_ruled hz
  | fan =>
    rw [update, Act.wp_bind, Act.wp_read, hz.fu]
    exact wp_remembering_ruled hz wp_updateFan_rules

/-- A finite step is tried. -/
theorem wp_attemptStep_turn (hf : s.allFinite = true)
    (hfound : Finds l y J s) (hz : Prepared y z) :
    (attemptStep scheme prm l o J s).wp (fun _ => Turn scheme prm l y) (fun _ _ => True) z := by
  rw [attemptStep, Act.wp_bind, Act.wp_read, Act.wp_bind, Iteration.evaluate, Act.wp_bind,
    Act.wp_update, Act.wp_bind, Act.wp_read, hz.u, hz.fu]
  simp only [hz.problem]
  cases hr : y.problem.residual (y.u + s) with
  | error e => trivial
  | ok r =>
    have htries : Tries l y J s r := ⟨hfound, hf, hr⟩
    rw [Act.wp_ofExcept_ok, Act.wp_bind]
    refine (wp_update_ruled (y := y) ?_).mono (fun accepted x hx => ?_) fun _ _ _ => trivial
    · exact ⟨⟨rfl, rfl, rfl, hz.code, hz.stopped⟩, hz.region⟩
    obtain ⟨⟨shrinks, m, hrules, hm⟩, hstays, hcode, hstopped⟩ := hx
    have hend : ∀ x : Iteration α n (Memory α n), x.u = (if accepted then y.u + s else y.u) →
        x.fu = (if accepted then r else y.fu) → x.memory.region = placed scheme x.fu m →
        x.stopped = y.stopped → x.code = y.code →
        if exhausted prm x.memory
          then Turn scheme prm l y { x with code := .shrinkThresholdExceeded, stopped := true }
          else Turn scheme prm l y x := by
      intro x hu hfu hm hstopped hcode
      have hshrinks : x.memory.shrinks = m.shrinks :=
        (congrArg Region.shrinks hm).trans (placed_shrinks x.fu m)
      have hex : exhausted prm x.memory = prm.maxShrinkTimes.any (· < m.shrinks) := by
        rw [exhausted, hshrinks]
      split
      · rename_i h
        exact .tries htries hrules hu hfu hm (by rw [if_pos (hex ▸ h)]; exact ⟨rfl, rfl⟩)
      · rename_i h
        exact .tries htries hrules hu hfu hm (by rw [if_neg (hex ▸ h)]; exact ⟨hstopped, hcode⟩)
    cases accepted with
    | true =>
      rw [if_pos rfl, Act.wp_bind, Iteration.adopt, Act.wp_update, Act.wp_bind, remembering,
        Act.wp_zoom, Act.wp_update, Act.wp_bind, Act.wp_read]
      refine wp_exhausted.mpr (hend _ rfl rfl ?_ hstopped hcode)
      exact (settle_region r x.memory).trans (congrArg (placed scheme r) hm)
    | false =>
      obtain ⟨hu, hfu⟩ := hstays rfl
      rw [if_neg Bool.false_ne_true, Act.wp_bind, Act.wp_read]
      exact wp_exhausted.mpr (hend x hu hfu (hm.trans (by rw [hfu]; rfl)) hstopped hcode)

/-- Every step that returns is a turn. -/
theorem wp_advance_turn : (advance scheme prm l o).wp (fun _ => Turn scheme prm l y)
    (fun _ _ => True) y := by
  rw [advance_eq, Act.wp_bind]
  refine (blind_prepared.keeps_jacobian.wp_returns ⟨.refl y, rfl⟩).mono (fun J z hz => ?_)
    fun _ _ _ => trivial
  obtain ⟨hJ, hz⟩ := hz
  rw [Act.wp_bind]
  refine ((keeps_search_prepared J).wp_returns hz).mono (fun s z' hz' => ?_) fun _ _ _ => trivial
  obtain ⟨hs, hz'⟩ := hz'
  split
  · rename_i hfinite
    exact wp_attemptStep_turn hfinite ⟨z, z', hJ, hs⟩ hz'
  · rename_i hfinite
    rw [wp_terminate]
    exact .strays ⟨z, z', hJ, hs⟩ (by simpa using hfinite) hz'.u hz'.fu hz'.region ⟨rfl, rfl⟩

/-- The statistics do not matter to what a step did. -/
theorem Turn.worked {x : Iteration α n (Memory α n)} (h : Turn scheme prm l y x) (st : Stats) :
    Turn scheme prm l y { x with stats := st } := by
  cases h with
  | strays hf hs hu hfu hm hend => exact .strays hf hs hu hfu hm hend
  | tries ht hr hu hfu hm hend => exact .tries ht hr hu hfu hm hend

/-- A lap is a turn. -/
theorem turn_of_lap {x : Iteration α n (Memory α n)}
    (h : (lap (method scheme prm l o n)).Returns y () x) : Turn scheme prm l y x := by
  have hlap : (lap (method scheme prm l o n)).wp (fun _ => Turn scheme prm l y)
      (fun _ _ => True) y := by
    rw [lap, Act.wp_bind]
    exact wp_advance_turn.mono (fun _ z hz => hz.worked _) fun _ _ h => h
  exact h.wp_iff.mp hlap

end Steps

section Runs

variable {y x : Iteration α n (Memory α n)}

theorem method_keeps_at (P : Problem α n) (k : ℤ) :
    (method scheme prm l o n).advance.Keeps (At P k) :=
  Algorithm.keeps_at (.trustRegion scheme prm l) o P k

variable (scheme) in
/-- Under Fan's rule, the radius is the one for `mu` and the residual. -/
def Coupled (it : Iteration α n (Memory α n)) : Prop :=
  scheme = .fan → it.memory.radius = fanRadius it.memory.mu it.fu

theorem Turn.coupled (h : Turn scheme prm l y x) (hy : Coupled scheme y) : Coupled scheme x := by
  rintro rfl
  cases h with
  | strays _ _ hu hfu hm _ =>
    have hradius : x.memory.radius = y.memory.radius := congrArg Region.radius hm
    have hmu : x.memory.mu = y.memory.mu := congrArg Region.mu hm
    rw [hradius, hmu, hfu]
    exact hy rfl
  | @tries J s r shrinks accepted m ht hr hu hfu hm hend =>
    have hradius : x.memory.radius = fanRadius m.mu x.fu := congrArg Region.radius hm
    have hmu : x.memory.mu = m.mu := congrArg Region.mu hm
    rw [hradius, hmu]

theorem coupled_begun (P : Problem α n) (fu : Vec α n) :
    Coupled scheme (⟨P, P.start, fu, .default, false, ({} : Stats).countResidual,
      fresh scheme P.start fu⟩ : Iteration α n (Memory α n)) := by
  rintro rfl
  rfl

/-- A step that leaves too long a row of shrinking steps behind has ended the run. -/
theorem Turn.ends_row (h : Turn scheme prm l y x) {k : ℕ} (hk : prm.maxShrinkTimes = some k)
    (hlong : k < x.memory.shrinks) : x.stopped = true := by
  cases h with
  | strays _ _ _ _ _ hend => exact hend.1
  | @tries J s r shrinks accepted m ht hr hu hfu hm hend =>
    have hshrinks : x.memory.shrinks = m.shrinks :=
      (congrArg Region.shrinks hm).trans (placed_shrinks x.fu m)
    rw [hk, Option.any_some, if_pos (decide_eq_true (hshrinks ▸ hlong))] at hend
    exact hend.1

end Runs

end Rootfinder.TrustRegion
