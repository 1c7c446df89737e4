import Rootfinder.Proofs.Quitting
import Rootfinder.Proofs.Restarts
import Rootfinder.Proofs.RunDecomposition

namespace Rootfinder.Secant

open Iteration

variable {α ε : Type} {n : Nat}

/-- What registering a reset leads to. -/
def afterReset (plan : Plan α ε) (y : Iteration α n (Memory ε)) : Iteration α n (Memory ε) :=
  if plan.limit < y.memory.resets + 1 then
    { y with
      memory := { y.memory with resets := y.memory.resets + 1 }, code := .failure, stopped := true }
  else { y with memory := ⟨y.memory.resets + 1, plan.identity⟩ }

def moved (y : Iteration α n (Memory ε)) [Add α] (delta : Vec α n) : Iteration α n (Memory ε) :=
  { y with
    u := y.u + delta, fu := (y.problem.residualInto (y.u + delta) y.fu).array,
    stats := y.stats.countResidual }

section Resets

variable (plan : Plan α ε) (y : Iteration α n (Memory ε))

@[simp]
theorem afterReset_u : (afterReset plan y).u = y.u := by
  unfold afterReset
  split <;> rfl

@[simp]
theorem afterReset_fu : (afterReset plan y).fu = y.fu := by
  unfold afterReset
  split <;> rfl

@[simp]
theorem afterReset_stats : (afterReset plan y).stats = y.stats := by
  unfold afterReset
  split <;> rfl

@[simp]
theorem afterReset_resets : (afterReset plan y).memory.resets = y.memory.resets + 1 := by
  unfold afterReset
  split <;> rfl

/-- The estimate is reset unless the run is over. -/
theorem afterReset_estimate : (afterReset plan y).memory.estimate =
    if plan.limit < y.memory.resets + 1 then y.memory.estimate else plan.identity := by
  unfold afterReset
  split <;> rfl

end Resets

section Steps

variable {plan : Plan α ε} {y : Iteration α n (Memory ε)} {delta : Vec α n}

theorem wp_registerReset_iff {post : Bool → Iteration α n (Memory ε) → Prop}
    {broken : Fault α → Iteration α n (Memory ε) → Prop} :
    (registerReset plan).wp post broken y ↔
      post (decide (y.memory.resets + 1 ≤ plan.limit)) (afterReset plan y) := by
  rw [registerReset, Act.wp_bind, Act.wp_update, Act.wp_bind, Act.wp_read, afterReset]
  by_cases h : plan.limit < y.memory.resets + 1
  · rw [if_pos h, if_pos h, Act.wp_bind, wp_terminate, decide_eq_false (Nat.not_le.mpr h)]
    rfl
  · rw [if_neg h, if_neg h, Act.wp_bind, Act.wp_log, Act.wp_bind, Act.wp_update,
      decide_eq_true (Nat.not_lt.mp h)]
    rfl

variable [Scalar α] {updated : ε → Vec α n → Vec α n → Option ε}

def learned (plan : Plan α ε) (updated : ε → Vec α n → Vec α n → Option ε)
    (y : Iteration α n (Memory ε)) (delta : Vec α n) : Iteration α n (Memory ε) :=
  match updated y.memory.estimate delta ((moved y delta).fu - y.fu) with
  | some estimate => { moved y delta with memory := { y.memory with estimate := estimate } }
  | none => afterReset plan (moved y delta)

theorem wp_follow_iff {post : Unit → Iteration α n (Memory ε) → Prop}
    {broken : Fault α → Iteration α n (Memory ε) → Prop} :
    (follow plan delta updated).wp post broken y ↔
      if delta.allFinite then
        match (y.problem.residualInto (y.u + delta) y.fu).fault with
        | none => post () (learned plan updated y delta)
        | some e => broken e (moved y delta)
      else post () (afterReset plan y) := by
  have hreset : ∀ z : Iteration α n (Memory ε),
      (discard (registerReset plan)).wp post broken z ↔ post () (afterReset plan z) := by
    intro z
    change (registerReset plan >>= fun _ => pure PUnit.unit).wp _ _ z ↔ _
    rw [Act.wp_bind, wp_registerReset_iff]
    rfl
  rw [follow, Act.wp_bind, Act.wp_read]
  split
  · rw [Act.wp_bind, moveTo, Act.wp_bind, Act.wp_update, wp_refresh_into]
    dsimp only
    cases (y.problem.residualInto (y.u + delta) y.fu).fault with
    | some e => rfl
    | none =>
      rw [Act.wp_bind, Act.wp_read, learned]
      dsimp only [moved]
      cases updated y.memory.estimate delta
        ((y.problem.residualInto (y.u + delta) y.fu).array - y.fu) with
      | some estimate => rfl
      | none => exact hreset _
  · exact hreset y

variable (plan updated y delta)

@[simp]
theorem learned_stats : (learned plan updated y delta).stats = y.stats.countResidual := by
  unfold learned
  split
  · rfl
  · exact afterReset_stats plan _

variable {plan updated y delta}

/-- With an update, only the estimate changes besides the step. -/
theorem learned_of_updated {estimate : ε}
    (h : updated y.memory.estimate delta ((moved y delta).fu - y.fu) = some estimate) :
    learned plan updated y delta =
      { moved y delta with memory := ⟨y.memory.resets, estimate⟩ } := by
  rw [learned, h]

/-- A finite step that was taken and that the estimate was updated from. -/
structure Stride (updated : ε → Vec α n → Vec α n → Option ε) (delta : Vec α n)
    (y x : Iteration α n (Memory ε)) : Prop where
  finite : delta.allFinite = true
  u : x.u = y.u + delta
  fu : x.fu = (y.problem.residualInto (y.u + delta) y.fu).array
  fault : (y.problem.residualInto (y.u + delta) y.fu).fault = none
  estimate : updated y.memory.estimate delta (x.fu - y.fu) = some x.memory.estimate

end Steps

end Rootfinder.Secant

namespace Rootfinder

open Iteration Secant

variable {α : Type} [Scalar α] {n limit : Nat} {o : Options α}

/-- A finite step to a point where the residual returns makes a lap of Broyden's method. -/
theorem Broyden.returns_lap {y : Iteration α n (Memory (Mat α n n))} {d : Vec α n}
    (hd : delta y.memory.estimate y.fu = d) (hfinite : d.allFinite = true)
    (hfault : (y.problem.residualInto (y.u + d) y.fu).fault = none) :
    (lap (method limit o n)).Returns y () { learned (plan limit o n) updated y d with
      stats := y.stats.countResidual.countStep } := by
  apply Act.returns_of_wp
  rw [lap, Act.wp_bind, method, Secant.method, advance, Act.wp_bind, Act.wp_read, hd,
    wp_follow_iff, if_pos hfinite, hfault, Act.wp_update, learned_stats]
  exact ⟨rfl, rfl⟩

theorem Klement.returns_lap {y : Iteration α n (Memory (Vec α n))} {d : Vec α n}
    (hdegenerate : degenerate y.memory.estimate = false)
    (hd : delta y.memory.estimate y.fu = d) (hfinite : d.allFinite = true)
    (hfault : (y.problem.residualInto (y.u + d) y.fu).fault = none) :
    (lap (method limit o n)).Returns y () { learned (plan limit o n) updated y d with
      stats := y.stats.countResidual.countStep } := by
  apply Act.returns_of_wp
  rw [lap, Act.wp_bind, method, Secant.method, advance, Act.wp_bind, Act.wp_read, hdegenerate,
    if_neg Bool.false_ne_true, propose, Act.wp_bind, Act.wp_read, hd, wp_follow_iff,
    if_pos hfinite, hfault, Act.wp_update, learned_stats]
  exact ⟨rfl, rfl⟩

end Rootfinder
