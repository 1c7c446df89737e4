import Rootfinder.Method.Secant

namespace Rootfinder.Klement

open Secant

variable {α : Type} [Scalar α] {n : Nat}

def name : String := "Klement"

def plan (limit : Nat) (o : Options α) (n : Nat) : Plan α (Vec α n) :=
  ⟨name, Vec.ones n, limit, o.norm⟩

def degenerate (diag : Vec α n) : Bool := diag.any fun d => Scalar.abs d ≤ Scalar.epsilon

def delta (diag fu : Vec α n) : Vec α n := Vector.zipWith (· / ·) (-fu) diag

/-- The rank-one secant update, weighted by the squared diagonal and projected onto it. -/
def updated (diag delta y : Vec α n) : Option (Vec α n) :=
  let squares : Vec α n := diag.map fun d => d * d
  let w := Vector.zipWith (· * ·) squares delta
  let denom := Vec.dot w delta
  if !Scalar.isFinite denom || denom ≤ Scalar.epsilon * squares.greatest * Vec.dot delta delta then
    none
  else
    let miss := y - Vector.zipWith (· * ·) diag delta
    some (diag + Vec.divide (Vector.zipWith (· * ·) miss w) denom)

def propose (limit : Nat) (o : Options α) :
    Act α (Iteration α n (Memory (Vec α n))) Unit := do
  let it ← Act.read
  follow (plan limit o n) (delta it.memory.estimate it.fu) updated

def advance (limit : Nat) (o : Options α) :
    Act α (Iteration α n (Memory (Vec α n))) Unit := do
  let it ← Act.read
  if degenerate it.memory.estimate then
    let goOn ← registerReset (plan limit o n)
    if goOn then propose limit o else pure ()
  else propose limit o

def method (limit : Nat) (o : Options α) (n : Nat) : Method α n (Memory (Vec α n)) :=
  Secant.method (plan limit o n) o (advance limit o)

end Rootfinder.Klement
