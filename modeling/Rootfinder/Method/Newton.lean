import Rootfinder.Iteration
import Rootfinder.Linear.Solver
import Rootfinder.LineSearch

namespace Rootfinder

/-- How a method obtains its Jacobian and solves with it. -/
structure Linearization (α : Type) where
  differencing : Differencing α
  concrete : Bool
  method : LinearMethod
  preconditioner : Option (Preconditioner α)
  routines : LinearRoutines α

namespace Linearization

variable {α : Type} [Scalar α]

def solver (l : Linearization α) : LinearSolver α :=
  ⟨l.routines, l.method, l.preconditioner, LinearSolver.defaultRtol⟩

end Linearization

namespace Newton

variable {α : Type} [Scalar α] {n : Nat}

def name (search : Option (LineSearch.Params α)) : String :=
  if search.isSome then "NewtonRaphson(BackTracking)" else "NewtonRaphson"

variable (search : Option (LineSearch.Params α)) (l : Linearization α) (o : Options α)

def quit (code : ReturnCode) : Act α (Iteration α n Unit) Unit :=
  Iteration.terminate (name search) o.norm code

def searched (prm : LineSearch.Params α) (delta : Vec α n) :
    Act α (Iteration α n Unit) (LineSearch.Trial α n) := do
  let it ← Act.read
  LineSearch.search prm Iteration.evaluate o.norm it.u delta (o.norm.of it.fu)

def follow (delta : Vec α n) : Act α (Iteration α n Unit) Unit := do
  let it ← Act.read
  match search with
  | none => Iteration.moveTo (it.u + delta)
  | some prm =>
    match ← Act.attempt (searched o prm delta) with
    | .ok t => Iteration.adopt t.point t.residual
    | .error e =>
      if e.kind = .convergence then
        Act.log (.lineSearchFailed (name search) e)
        quit search o .stalled
      else Act.raise e

def advance : Act α (Iteration α n Unit) Unit := do
  let it ← Act.read
  let J ← Iteration.counting
    (Jacobian.build l.concrete it.problem l.differencing it.u it.fu)
  match ← Act.attempt (Iteration.counting
      (l.solver.solve J (-it.fu) it.u.toList it.problem.parameter)) with
  | .ok delta => if delta.allFinite then follow search o delta else quit search o .failure
  | .error e =>
    if e.kind = .linearAlgebra then
      Act.log (.linearSolveFailed (name search) it.stats.nsteps e)
      quit search o .failure
    else Act.raise e

def method (n : Nat) : Method α n Unit :=
  ⟨name search, o, fun _ _ => (), advance search l o⟩

end Newton

end Rootfinder
