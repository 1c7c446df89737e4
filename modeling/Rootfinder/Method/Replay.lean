import Rootfinder.Iteration

namespace Rootfinder.Replay

/-- An outcome laid down beforehand: the iterate and residual shown at a given step, and
how the run ends there. -/
structure Script (α : Type) where
  label : String
  code : Option ReturnCode
  u : List α
  resid : List α
  steps : Int
  supports : Bool

variable {α : Type} [Scalar α] {n : Nat}

def advance (s : Script α) (o : Options α) : Act α (Iteration α n Unit) Unit := do
  let it ← Act.read
  if it.stats.nsteps + 1 < s.steps then pure ()
  else do
    let u ← Act.ofExcept (Vec.spread n s.u)
    Act.update fun it => { it with u := u }
    let resid ← Act.ofExcept (Vec.spread n s.resid)
    Act.update fun it => { it with fu := resid }
    match s.code with
    | some code => Iteration.terminate s.label o.norm code
    | none => pure ()

def method (s : Script α) (o : Options α) (n : Nat) : Method α n Unit :=
  ⟨s.label, o, fun _ _ => (), advance s o⟩

end Rootfinder.Replay
