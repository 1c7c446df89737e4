import Rootfinder.Proofs.Runs
import Rootfinder.Proofs.SecantSteps

namespace Rootfinder

open Iteration

namespace Secant

variable {α ε : Type} {n : Nat}

/-- What tells a secant method from another: the estimates that it does not divide by, its steps,
and its updates. -/
structure Rule (α ε : Type) (n : Nat) where
  refuses : ε → Bool
  delta : ε → Vec α n → Vec α n
  updated : ε → Vec α n → Vec α n → Option ε

/-- The step that is proposed in a state. -/
def Rule.proposal (rule : Rule α ε n) (it : Iteration α n (Memory ε)) : Vec α n :=
  rule.delta it.memory.estimate it.fu

/-- The state in which a run ends that has used up its resets: the step counts, and the estimate is
not reset. -/
def spent (plan : Plan α ε) (z : Iteration α n (Memory ε)) : Iteration α n (Memory ε) :=
  { z with
    memory := ⟨plan.limit + 1, z.memory.estimate⟩, code := .failure, stopped := true,
    stats := z.stats.countStep }

section Proposals

variable (rule : Rule α ε n) (plan : Plan α ε) (y : Iteration α n (Memory ε))

/-- The state in which a step is proposed. -/
inductive Poised : Iteration α n (Memory ε) → Prop where
  | ready (h : rule.refuses y.memory.estimate = false) : Poised y
  | renewed (h : rule.refuses y.memory.estimate = true) (hroom : y.memory.resets < plan.limit) :
    Poised { y with memory := ⟨y.memory.resets + 1, plan.identity⟩ }

variable {rule plan y} {z z' : Iteration α n (Memory ε)}

theorem Poised.unique (h : Poised rule plan y z) (h' : Poised rule plan y z') : z = z' := by
  cases h with
  | ready h =>
    cases h' with
    | ready _ => rfl
    | renewed h' => exact absurd (h.symm.trans h') Bool.false_ne_true
  | renewed h =>
    cases h' with
    | ready h' => exact absurd (h'.symm.trans h) Bool.false_ne_true
    | renewed _ => rfl

theorem Poised.still (h : Poised rule plan y z) : Still y z := by
  cases h <;> exact ⟨rfl, rfl, rfl, rfl, rfl⟩

theorem Poised.resets_le (h : Poised rule plan y z) : y.memory.resets ≤ z.memory.resets := by
  cases h with
  | ready => exact le_rfl
  | renewed => exact Nat.le_succ _

theorem Poised.resets_le_limit (h : Poised rule plan y z) (hy : y.memory.resets ≤ plan.limit) :
    z.memory.resets ≤ plan.limit := by
  cases h with
  | ready => exact hy
  | renewed _ hroom => exact hroom

/-- Only an estimate that was refused is reset before a step is proposed. -/
theorem Poised.renewed_of_lt (h : Poised rule plan y z)
    (hlt : y.memory.resets < z.memory.resets) :
    rule.refuses y.memory.estimate = true ∧ z.memory.estimate = plan.identity := by
  cases h with
  | ready => exact absurd hlt (lt_irrefl _)
  | renewed h => exact ⟨h, rfl⟩

end Proposals

variable [Scalar α]

def Rule.propose (rule : Rule α ε n) (plan : Plan α ε) :
    Act α (Iteration α n (Memory ε)) Unit := do
  let it ← Act.read
  follow plan (rule.proposal it) rule.updated

def Rule.advance (rule : Rule α ε n) (plan : Plan α ε) :
    Act α (Iteration α n (Memory ε)) Unit := do
  let it ← Act.read
  if rule.refuses it.memory.estimate then
    let goOn ← registerReset plan
    if goOn then rule.propose plan else pure ()
  else rule.propose plan

section Steps

variable (rule : Rule α ε n) (plan : Plan α ε) (y : Iteration α n (Memory ε))

/-- The state in which a step registers a reset that it does not go on from. -/
inductive Loses : Iteration α n (Memory ε) → Prop where
  | refused (h : rule.refuses y.memory.estimate = true) (hroom : plan.limit ≤ y.memory.resets) :
    Loses y
  | unbounded {z : Iteration α n (Memory ε)} (hz : Poised rule plan y z)
    (hd : (rule.proposal z).allFinite = false) : Loses z
  | degenerate {z : Iteration α n (Memory ε)} (hz : Poised rule plan y z)
    (hd : (rule.proposal z).allFinite = true)
    (hfault : (z.problem.residualInto (z.u + rule.proposal z) z.fu).fault = none)
    (hupdated : rule.updated z.memory.estimate (rule.proposal z)
      ((moved z (rule.proposal z)).fu - z.fu) = none) :
    Loses (moved z (rule.proposal z))

inductive Turn : Option (Fault α) → Iteration α n (Memory ε) → Prop where
  | lost {z : Iteration α n (Memory ε)} (hz : Loses rule plan y z) :
    Turn none (afterReset plan z)
  | learned {z : Iteration α n (Memory ε)} {estimate : ε} (hz : Poised rule plan y z)
    (hd : (rule.proposal z).allFinite = true)
    (hfault : (z.problem.residualInto (z.u + rule.proposal z) z.fu).fault = none)
    (hupdated : rule.updated z.memory.estimate (rule.proposal z)
      ((moved z (rule.proposal z)).fu - z.fu) = some estimate) :
    Turn none { moved z (rule.proposal z) with memory := ⟨z.memory.resets, estimate⟩ }
  | broken {z : Iteration α n (Memory ε)} {e : Fault α} (hz : Poised rule plan y z)
    (hd : (rule.proposal z).allFinite = true)
    (hfault : (z.problem.residualInto (z.u + rule.proposal z) z.fu).fault = some e) :
    Turn (some e) (moved z (rule.proposal z))

variable {rule plan y} {z x : Iteration α n (Memory ε)} {fault : Option (Fault α)}

theorem Loses.resets_le (h : Loses rule plan y z) : y.memory.resets ≤ z.memory.resets := by
  cases h with
  | refused => exact le_rfl
  | unbounded hz => exact hz.resets_le
  | degenerate hz => exact hz.resets_le

theorem Loses.resets_le_limit (h : Loses rule plan y z) (hy : y.memory.resets ≤ plan.limit) :
    z.memory.resets ≤ plan.limit := by
  cases h with
  | refused => exact hy
  | unbounded hz => exact hz.resets_le_limit hy
  | degenerate hz => exact hz.resets_le_limit hy

theorem Turn.resets_le (h : Turn rule plan y fault x) : y.memory.resets ≤ x.memory.resets := by
  cases h with
  | lost hz =>
    rw [afterReset_resets]
    exact hz.resets_le.trans (Nat.le_succ _)
  | learned hz => exact hz.resets_le
  | broken hz => exact hz.resets_le

/-- A step that is not finite leads nowhere. -/
theorem Turn.stays (h : Turn rule plan y fault x) (hz : Poised rule plan y z)
    (hd : (rule.proposal z).allFinite = false) : x.u = y.u ∧ x.fu = y.fu := by
  have hclash : ∀ {z'}, Poised rule plan y z' → (rule.proposal z').allFinite = true → False :=
    fun hz' hd' => by
      rw [← hz.unique hz', hd] at hd'
      cases hd'
  cases h with
  | lost hl =>
    rw [afterReset_u, afterReset_fu]
    cases hl with
    | refused => exact ⟨rfl, rfl⟩
    | unbounded hz' => exact ⟨hz'.still.u, hz'.still.fu⟩
    | degenerate hz' hd' => exact (hclash hz' hd').elim
  | learned hz' hd' => exact (hclash hz' hd').elim
  | broken hz' hd' => exact (hclash hz' hd').elim

/-- After a reset within the limit, the estimate is the one a run starts from, unless it was reset
before the step and updated from it. -/
theorem Turn.renewed (h : Turn rule plan y fault x) (hlt : y.memory.resets < x.memory.resets)
    (hle : x.memory.resets ≤ plan.limit) : x.memory.estimate = plan.identity ∨
      rule.refuses y.memory.estimate = true ∧ ∃ z, Poised rule plan y z ∧
        z.memory.estimate = plan.identity ∧ Stride rule.updated (rule.proposal z) z x := by
  cases h with
  | lost hl =>
    rw [afterReset_resets] at hle
    rw [afterReset_estimate, if_neg (Nat.not_lt.mpr hle)]
    exact .inl rfl
  | learned hz hd hfault hupdated =>
    obtain ⟨hrefused, hidentity⟩ := hz.renewed_of_lt hlt
    exact .inr ⟨hrefused, _, hz, hidentity, hd, rfl, rfl, hfault, hupdated⟩
  | broken hz => exact .inl (hz.renewed_of_lt hlt).2

theorem wp_propose_turn (hz : Poised rule plan y z) : (rule.propose plan).wp
    (fun _ => Turn rule plan y none) (fun e => Turn rule plan y (some e)) z := by
  rw [Rule.propose, Act.wp_bind, Act.wp_read, wp_follow_iff]
  cases hd : (rule.proposal z).allFinite with
  | false => exact .lost (.unbounded hz hd)
  | true =>
    rw [if_pos rfl]
    cases hfault : (z.problem.residualInto (z.u + rule.proposal z) z.fu).fault with
    | some e => exact .broken hz hd hfault
    | none =>
      change Turn rule plan y none (Secant.learned plan rule.updated z (rule.proposal z))
      unfold Secant.learned
      split
      · exact .learned hz hd hfault ‹_›
      · exact .lost (.degenerate hz hd hfault ‹_›)

/-- All that a step by a rule can do. -/
theorem wp_advance_turn : (rule.advance plan).wp (fun _ => Turn rule plan y none)
    (fun e => Turn rule plan y (some e)) y := by
  rw [Rule.advance, Act.wp_bind, Act.wp_read]
  cases hr : rule.refuses y.memory.estimate with
  | false =>
    rw [if_neg Bool.false_ne_true]
    exact wp_propose_turn (.ready hr)
  | true =>
    rw [if_pos rfl, Act.wp_bind, wp_registerReset_iff]
    by_cases hroom : y.memory.resets < plan.limit
    · rw [decide_eq_true (Nat.succ_le_of_lt hroom), if_pos rfl, afterReset,
        if_neg (Nat.not_lt.mpr (Nat.succ_le_of_lt hroom))]
      exact wp_propose_turn (.renewed hr hroom)
    · rw [decide_eq_false (by omega), if_neg Bool.false_ne_true]
      exact .lost (.refused hr (Nat.not_lt.mp hroom))

end Steps

end Secant

namespace Klement

variable {α : Type} [Scalar α] {n : Nat}

def rule : Secant.Rule α (Vec α n) n := ⟨degenerate, delta, updated⟩

theorem advance_eq (limit : Nat) (o : Options α) :
    (advance limit o : Act α (Iteration α n (Secant.Memory (Vec α n))) Unit) =
      rule.advance (plan limit o n) := rfl

end Klement

namespace Broyden

variable {α : Type} [Scalar α] {n : Nat}

/-- An inverse is not divided by. -/
def rule : Secant.Rule α (Mat α n n) n := ⟨fun _ => false, delta, updated⟩

theorem advance_eq (limit : Nat) (o : Options α) :
    (advance limit o : Act α (Iteration α n (Secant.Memory (Mat α n n))) Unit) =
      rule.advance (plan limit o n) := rfl

/-- An inverse proposes a step as it stands. -/
theorem poised_eq {plan : Secant.Plan α (Mat α n n)}
    {e z : Iteration α n (Secant.Memory (Mat α n n))} (h : Secant.Poised rule plan e z) : z = e := by
  cases h with
  | ready => rfl
  | renewed h => cases h

end Broyden

namespace Secant

variable {α ε : Type} [Scalar α] {n : Nat}

/-- The secant methods under some limit of resets. -/
inductive Variant (limit : Nat) (o : Options α) :
    {ε : Type} → Rule α ε n → Plan α ε → Method α n (Memory ε) → Prop where
  | klement : Variant limit o Klement.rule (Klement.plan limit o n) (Klement.method limit o n)
  | broyden : Variant limit o Broyden.rule (Broyden.plan limit o n) (Broyden.method limit o n)

section Runs

variable {limit : Nat} {o : Options α} {rule : Rule α ε n} {plan : Plan α ε}
  {m : Method α n (Memory ε)} {P : Problem α n} {b e x y : Iteration α n (Memory ε)} {k : Nat}

theorem Variant.limit_eq (h : Variant limit o rule plan m) : plan.limit = limit := by
  cases h <;> rfl

theorem Variant.advance_eq (h : Variant limit o rule plan m) : m.advance = rule.advance plan := by
  cases h with
  | klement => exact Klement.advance_eq limit o
  | broyden => exact Broyden.advance_eq limit o

theorem Variant.begun_memory (h : Variant limit o rule plan m) (fu : Vec α n) :
    (begun m P fu).memory = ⟨0, plan.identity⟩ := by
  cases h <;> rfl

theorem Variant.keeps_at (h : Variant limit o rule plan m) (P : Problem α n) (k : Int) :
    m.advance.Keeps (At P k) := by
  cases h
  · exact Algorithm.keeps_at (.klement limit) o P k
  · exact Algorithm.keeps_at (.broyden limit) o P k

variable (hm : Variant limit o rule plan m)

include hm

theorem turn_of_lap (h : (lap m).Returns y () x) :
    ∃ w, Turn rule plan y none w ∧ x = { w with stats := w.stats.countStep } := by
  have hlap : (lap m).wp (fun _ x => ∃ w, Turn rule plan y none w ∧
      x = { w with stats := w.stats.countStep }) (fun _ _ => True) y := by
    rw [lap, Act.wp_bind, hm.advance_eq]
    exact wp_advance_turn.mono (fun _ w hw => ⟨w, hw, rfl⟩) fun _ _ _ => trivial
  exact h.wp_iff.mp hlap

/-- A lap takes back no reset; unless it registers one, it is a stride from an estimate that can be
divided by. -/
theorem stride_of_lap (h : (lap m).Returns y () x) : y.memory.resets ≤ x.memory.resets ∧
    (x.memory.resets = y.memory.resets → rule.refuses y.memory.estimate = false ∧
      Stride rule.updated (rule.proposal y) y x) := by
  obtain ⟨w, hw, rfl⟩ := turn_of_lap hm h
  refine ⟨hw.resets_le, fun hresets => ?_⟩
  cases hw with
  | lost hz =>
    have hle := hz.resets_le
    have hmore := (afterReset_resets plan _).symm.trans hresets
    omega
  | learned hz hd hfault hupdated =>
    cases hz with
    | ready hready => exact ⟨hready, hd, rfl, rfl, hfault, hupdated⟩
    | renewed => exact absurd hresets (Nat.succ_ne_self _)

/-- Along a run, the resets stay within the limit up to the lap that uses up more. -/
theorem Laps.resets (hb : b.memory.resets = 0) (h : Laps m k b x) :
    x.memory.resets ≤ plan.limit ∨ ∃ j z, k = j + 1 ∧ Loses rule plan (after m j b) z ∧
      z.memory.resets = plan.limit ∧ x = spent plan z := by
  refine h.induction (C := fun k x => x.memory.resets ≤ plan.limit ∨ ∃ j z, k = j + 1 ∧
    Loses rule plan (after m j b) z ∧ z.memory.resets = plan.limit ∧ x = spent plan z)
    (.inl (hb ▸ Nat.zero_le _)) fun k y x _ hafter hgoes hlap ih => ?_
  have hy : y.memory.resets ≤ plan.limit := by
    obtain hle | ⟨j, z, -, -, -, rfl⟩ := ih
    · exact hle
    · exact absurd (tested_eq_self hgoes).1 Bool.noConfusion
  obtain ⟨w, hw, rfl⟩ := turn_of_lap hm hlap
  cases hw with
  | @lost z hz =>
    rcases Nat.lt_or_ge z.memory.resets plan.limit with hlt | hge
    · exact .inl ((afterReset_resets plan z).symm ▸ hlt)
    · have heq := Nat.le_antisymm (hz.resets_le_limit hy) hge
      refine .inr ⟨k, z, rfl, hafter.symm ▸ hz, heq, ?_⟩
      rw [afterReset, if_pos (by omega), heq]
      rfl
  | learned hz => exact .inl (hz.resets_le_limit hy)

/-- What a run has arrived at is within the limit, or its last lap used up more. -/
theorem resets_of_served (hb : Begins m P b) {rs : List (Request α)}
    (he : Act.Served (serve m) (GoesOn m) b rs e) :
    e.memory.resets ≤ plan.limit ∨ ∃ (j : Nat) (z : Iteration α n (Memory ε)),
      e.stats.nsteps = j + 1 ∧ Loses rule plan (after m j b) z ∧
      z.memory.resets = plan.limit ∧ e = spent plan z := by
  obtain ⟨P', fu, -, rfl⟩ := hb.begun hm.keeps_at
  have hnone : (begun m P' fu).memory.resets = 0 := congrArg Memory.resets (hm.begun_memory fu)
  obtain ⟨k, x, hx, hk, htested⟩ := laps_of_served hm.keeps_at he rfl
  obtain rfl | hself := tested_of_served hm.keeps_at he
  · exact .inl (hnone ▸ Nat.zero_le _)
  · obtain hle | ⟨j, z, rfl, hz, hlimit, rfl⟩ := Laps.resets hm hnone hx
    · exact .inl ((reading_of_tested htested).2.2.2 ▸ hle)
    · exact .inr ⟨j, z, by rw [hk]; rfl, hz, hlimit, hself.symm.trans htested⟩

/-- Steps and solves take back no reset, whether they return or raise. -/
theorem resets_le_serve {r : Request α} (hr : r = .step ∨ r = .solve) :
    e.memory.resets ≤ ((serve m r).run e).state.memory.resets := by
  have hadvance : m.advance.Keeps fun it => e.memory.resets ≤ it.memory.resets := by
    rw [hm.advance_eq]
    refine Act.keeps_of_wp fun it h => ?_
    exact wp_advance_turn.mono (fun _ _ hw => h.trans hw.resets_le)
      fun _ _ hw => h.trans hw.resets_le
  have hstep := keeps_step_of_advance hadvance (fun _ _ h => h) fun _ _ h => h
  obtain rfl | rfl := hr
  · exact hstep e le_rfl
  · exact ((keeps_solve_of_step hstep).bind fun _ => Act.keeps_pure ()) e le_rfl

/-- A step leaves what a turn leaves, or makes none. -/
theorem turn_of_step (e : Iteration α n (Memory ε)) :
    ∃ w, (w = e ∨ ∃ fault, Turn rule plan e fault w) ∧ ((step m).run e).state.u = w.u ∧
      ((step m).run e).state.fu = w.fu ∧ ((step m).run e).state.memory = w.memory := by
  let Left (x : Iteration α n (Memory ε)) : Prop :=
    ∃ w, (w = e ∨ ∃ fault, Turn rule plan e fault w) ∧
      x.u = w.u ∧ x.fu = w.fu ∧ x.memory = w.memory
  have hstep : (step m).wp (fun _ => Left) (fun _ => Left) e := by
    rw [wp_step_tested]
    split
    · exact ⟨e, .inl rfl, tested_u e, tested_fu e, tested_memory e⟩
    · rw [lap, Act.wp_bind, hm.advance_eq]
      refine wp_advance_turn.mono (fun _ w hw => ⟨w, .inr ⟨_, hw⟩, ?_⟩)
        fun _ w hw => ⟨w, .inr ⟨_, hw⟩, rfl, rfl, rfl⟩
      exact ⟨tested_u _, tested_fu _, tested_memory _⟩
  exact hstep.outcome (P := fun _ => Left)

/-- A step that counts registers a reset that it does not go on from, or it updates the estimate. -/
theorem lost_or_stride (h : (step m).Returns e () x)
    (hcounted : x.stats.nsteps = e.stats.nsteps + 1) :
    (∃ z, Loses rule plan e z ∧ x.u = z.u ∧ x.fu = z.fu ∧
      x.memory = (afterReset plan z).memory) ∨
    ∃ z, Poised rule plan e z ∧ Stride rule.updated (rule.proposal z) z x ∧
      x.memory.resets = z.memory.resets := by
  obtain ⟨-, rfl⟩ | ⟨-, y, hl, rfl⟩ := step_cases h
  · rw [tested_stats] at hcounted
    omega
  · obtain ⟨w, hw, rfl⟩ := turn_of_lap hm hl
    cases hw with
    | @lost z hz =>
      refine .inl ⟨z, hz, ?_, ?_, tested_memory _⟩
      · exact (tested_u _).trans (afterReset_u plan z)
      · exact (tested_fu _).trans (afterReset_fu plan z)
    | @learned z estimate hz hd hfault hupdated =>
      refine .inr ⟨z, hz, ⟨hd, tested_u _, tested_fu _, hfault, ?_⟩, ?_⟩
      · rw [tested_fu, tested_memory]
        exact hupdated
      · rw [tested_memory]

end Runs

end Secant

open Secant

section Strides

variable {α : Type} [Scalar α] {n limit : Nat} {o : Options α}

theorem Broyden.stride_of_lap {y x : Iteration α n (Memory (Mat α n n))}
    (h : (lap (method limit o n)).Returns y () x) : y.memory.resets ≤ x.memory.resets ∧
      (x.memory.resets = y.memory.resets →
        Stride updated (delta y.memory.estimate y.fu) y x) :=
  (Secant.stride_of_lap .broyden h).imp_right fun hstride hresets => (hstride hresets).2

theorem Klement.stride_of_lap {y x : Iteration α n (Memory (Vec α n))}
    (h : (lap (method limit o n)).Returns y () x) : y.memory.resets ≤ x.memory.resets ∧
      (x.memory.resets = y.memory.resets → degenerate y.memory.estimate = false ∧
        Stride updated (delta y.memory.estimate y.fu) y x) :=
  Secant.stride_of_lap .klement h

end Strides

/-- The resets of the methods of Klement and Broyden keep to their limit. While a run goes on there
are no more than the limit. There is one more exactly where the last step registered a reset beyond
the limit, which ends the run as a failure without resetting the estimate or evaluating anything; no
step or solve does anything after that. Steps and solves take back no reset, and starting over takes
back all. A step that is not finite moves neither the iterate nor its residual, and after a reset
within the limit the estimate is the identity, unless the same step updates it again. -/
theorem resets_keep_to_limit {α ε : Type} [Scalar α] {n limit : Nat} {o : Options α}
    {rule : Rule α ε n} {plan : Plan α ε} {m : Method α n (Memory ε)}
    (hm : Variant limit o rule plan m) {P : Problem α n} {b e : Iteration α n (Memory ε)}
    (hb : Begins m P b) {rs : List (Request α)} (he : Act.Served (serve m) (GoesOn m) b rs e) :
    (e.terminated = false → e.memory.resets ≤ limit) ∧
    e.memory.resets ≤ limit + 1 ∧
    (e.memory.resets = limit + 1 ↔ ∃ (k : Nat) (z : Iteration α n (Memory ε)),
      e.stats.nsteps = k + 1 ∧ Loses rule plan (after m k b) z ∧ z.memory.resets = limit ∧
      e = { z with
        memory := ⟨limit + 1, z.memory.estimate⟩, code := .failure, stopped := true,
        stats := z.stats.countStep }) ∧
    (e.memory.resets = limit + 1 →
      (step m).run e = ⟨.ok (), e, []⟩ ∧ (solve m).run e = ⟨.ok (e.toRun m), e, []⟩) ∧
    (∀ r, r = .step ∨ r = .solve → e.memory.resets ≤ ((serve m r).run e).state.memory.resets) ∧
    (∀ start parameter x, (reinit m start parameter).Returns e () x →
      x.memory = ⟨0, plan.identity⟩) ∧
    ∀ x, ((step m).run e).state = x →
      (∀ z, Poised rule plan e z → (rule.proposal z).allFinite = false → x.u = e.u ∧ x.fu = e.fu) ∧
      (e.memory.resets < x.memory.resets → x.memory.resets ≤ limit →
        x.memory.estimate = plan.identity ∨
        rule.refuses e.memory.estimate = true ∧ ∃ z, Poised rule plan e z ∧
          z.memory.estimate = plan.identity ∧ Stride rule.updated (rule.proposal z) z x) := by
  obtain rfl := hm.limit_eq
  have hcourse := resets_of_served hm hb he
  have hover : e.memory.resets = plan.limit + 1 → e.terminated = true := fun hlimit => by
    obtain hle | ⟨j, z, -, -, -, rfl⟩ := hcourse
    · omega
    · rfl
  refine ⟨fun hgoes => ?_, ?_, ⟨fun hlimit => ?_, ?_⟩, fun hlimit => ?_,
    fun r hr => resets_le_serve hm hr, fun start parameter x hreinit => ?_, fun x hx => ?_⟩
  · obtain hle | ⟨j, z, -, -, -, rfl⟩ := hcourse
    · exact hle
    · cases hgoes
  · obtain hle | ⟨j, z, -, -, -, rfl⟩ := hcourse
    · exact Nat.le_succ_of_le hle
    · exact le_rfl
  · obtain hle | ⟨j, z, hsteps, hz, hspent⟩ := hcourse
    · omega
    · exact ⟨j, z, hsteps, hz, hspent⟩
  · rintro ⟨j, z, -, -, -, rfl⟩
    rfl
  · exact ⟨step_of_terminated (hover hlimit), solve_of_terminated (hover hlimit)⟩
  · obtain ⟨P'', -, -, rfl⟩ := hreinit.wp_iff.mp (wp_reinit_begun start parameter)
    exact hm.begun_memory _
  · obtain ⟨w, hw, hu, hfu, hmem⟩ := turn_of_step hm e
    rw [hx] at hu hfu hmem
    rw [hu, hfu, hmem]
    obtain rfl | ⟨_, hw⟩ := hw
    · exact ⟨fun _ _ _ => ⟨rfl, rfl⟩, fun hlt => absurd hlt (lt_irrefl _)⟩
    · refine ⟨fun z hz hd => hw.stays hz hd, fun hlt hle => ?_⟩
      refine (hw.renewed hlt hle).imp_right fun ⟨hrefused, z, hz, hidentity, hstride⟩ => ?_
      refine ⟨hrefused, z, hz, hidentity, hstride.finite, ?_, ?_, hstride.fault, ?_⟩
      · rw [hu, hstride.u]
      · rw [hfu, hstride.fu]
      · rw [hfu, hmem, hstride.estimate]

/-- A residual that is the same everywhere. -/
def plateau (c : Float) : Problem Float 1 :=
  ⟨.outOfPlace (fun _ _ => .ok (.replicate 1 c)) none, .replicate 1 0.0, .absent⟩

/-- Broyden's method with a single reset. -/
def broydenOnce : Method Float 1 (Memory (Mat Float 1 1)) := Broyden.method 1 ⟨1e-10, 1000, .l2⟩ 1

/-- The run that it begins where the residual is one. -/
def plateauRun : Iteration Float 1 (Memory (Mat Float 1 1)) :=
  begun broydenOnce (plateau 1.0)
    ((plateau 1.0).residualInto (plateau 1.0).start (Vec.zero 1)).array

/-- Without a change of the residual, the second step uses up the reset. -/
theorem resets_keep_to_limit_plateau :
    Act.Served (serve broydenOnce) (GoesOn broydenOnce) plateauRun (List.replicate 2 .step)
      (after broydenOnce 2 plateauRun) ∧
    (after broydenOnce 1 plateauRun).memory.resets = 1 ∧
    ∃ z, Loses Broyden.rule (Broyden.plan 1 broydenOnce.options 1)
        (after broydenOnce 1 plateauRun) z ∧
      (after broydenOnce 2 plateauRun).memory.estimate = z.memory.estimate ∧
      (after broydenOnce 2 plateauRun).code = .failure := by
  have hok : ∀ k < 2,
      ((step broydenOnce).run (after broydenOnce k plateauRun)).result.isOk = true := by
    decide +kernel
  have hresets : ∀ k ≤ 2, (after broydenOnce k plateauRun).memory.resets = k := by decide +kernel
  have hsteps : (after broydenOnce 2 plateauRun).stats.nsteps = 2 := by decide +kernel
  have hstart : (start broydenOnce (plateau 1.0)).Returns () plateauRun () := returns_start rfl
  have hm : Variant 1 broydenOnce.options Broyden.rule (Broyden.plan 1 broydenOnce.options 1)
      broydenOnce := .broyden
  obtain ⟨-, -, hover, -⟩ := resets_keep_to_limit hm (.start hstart) (served_steps hok)
  obtain ⟨k, z, hk, hz, -, he⟩ := hover.mp (hresets 2 le_rfl)
  obtain rfl : k = 1 := by omega
  exact ⟨served_steps hok, hresets 1 (by decide), z, hz, by rw [he], by rw [he]⟩

end Rootfinder
