import Rootfinder.Method.Secant

namespace Rootfinder.Broyden

open Secant

variable {α : Type} [Scalar α] {n : Nat}

def name : String := "Broyden"

def plan (limit : Nat) (o : Options α) (n : Nat) : Plan α (Mat α n n) :=
  ⟨name, Mat.identity n, limit, o.norm⟩

def delta (inverse : Mat α n n) (fu : Vec α n) : Vec α n := -(inverse.mulVec fu)

/-- The good update, of the inverse. -/
def updated (inverse : Mat α n n) (delta y : Vec α n) : Option (Mat α n n) :=
  let hy := inverse.mulVec y
  let denom := Vec.dot delta hy
  if !Scalar.isFinite denom || Scalar.abs denom ≤ Scalar.epsilon * (delta.euclid * hy.euclid) then
    none
  else
    let left := delta - hy
    let right := Mat.vecMul delta inverse
    some (Vector.zipWith (fun row c => row + Vec.divide (Vec.scale c right) denom) inverse left)

def advance (limit : Nat) (o : Options α) :
    Act α (Iteration α n (Memory (Mat α n n))) Unit := do
  let it ← Act.read
  follow (plan limit o n) (delta it.memory.estimate it.fu) updated

def method (limit : Nat) (o : Options α) (n : Nat) : Method α n (Memory (Mat α n n)) :=
  Secant.method (plan limit o n) o (advance limit o)

end Rootfinder.Broyden
