import Rootfinder.Iteration

namespace Rootfinder.Secant

/-- How often the estimate was reset, and the estimate. -/
structure Memory (ε : Type) where
  resets : Nat
  estimate : ε

/-- The name of a method, the estimate it starts from, and how many resets it is allowed. -/
structure Plan (α ε : Type) where
  name : String
  identity : ε
  limit : Nat
  norm : Norm α

variable {α ε : Type} [Scalar α] {n : Nat}

/-- Resets the estimate, or ends the run once the resets are used up; tells if it goes on. -/
def registerReset (plan : Plan α ε) : Act α (Iteration α n (Memory ε)) Bool := do
  Act.update fun it => { it with memory := { it.memory with resets := it.memory.resets + 1 } }
  let it ← Act.read
  if plan.limit < it.memory.resets then
    Iteration.terminate plan.name plan.norm .failure
    pure false
  else
    Act.log (.estimateReset plan.name it.memory.resets plan.limit)
    Act.update fun it => { it with memory := { it.memory with estimate := plan.identity } }
    pure true

/-- Takes a finite step and updates the estimate from the step and the change of the residual; a
step that is not finite, or without an update, registers a reset. -/
def follow (plan : Plan α ε) (delta : Vec α n) (updated : ε → Vec α n → Vec α n → Option ε) :
    Act α (Iteration α n (Memory ε)) Unit := do
  let before ← Act.read
  if delta.allFinite then
    Iteration.moveTo (before.u + delta)
    let it ← Act.read
    match updated before.memory.estimate delta (it.fu - before.fu) with
    | some estimate =>
      Act.update fun it => { it with memory := { it.memory with estimate := estimate } }
    | none => discard (registerReset plan)
  else discard (registerReset plan)

def method (plan : Plan α ε) (o : Options α) (advance : Act α (Iteration α n (Memory ε)) Unit) :
    Method α n (Memory ε) :=
  ⟨plan.name, o, fun _ _ => ⟨0, plan.identity⟩, advance⟩

end Rootfinder.Secant
