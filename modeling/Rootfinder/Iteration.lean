import Rootfinder.Act
import Rootfinder.Solution

namespace Rootfinder

/-- Tolerance on the residual norm, greatest number of steps, and the norm. -/
structure Options (α : Type) where
  tolerance : α
  budget : Nat
  norm : Norm α

/-- The state of a method on a problem, with `memory` of its own. There is one problem and one
record of counters for all that works on them: a Jacobian has no problem of its own that would have
to follow when the run starts over on another one. Arrays for intermediate results are no part of
the state. -/
structure Iteration (α : Type) (n : Nat) (σ : Type) where
  problem : Problem α n
  u : Vec α n
  fu : Vec α n
  code : ReturnCode
  stopped : Bool
  stats : Stats
  memory : σ

/-- A method under its options: its memory at a fresh iterate and residual, and its step. -/
structure Method (α : Type) (n : Nat) (σ : Type) where
  name : String
  options : Options α
  restart : Vec α n → Vec α n → σ
  advance : Act α (Iteration α n σ) Unit

namespace Iteration

variable {α σ β : Type} [Scalar α] {n : Nat}

def terminated (it : Iteration α n σ) : Bool := it.stopped || it.code != .default

def counting (x : Act α Stats β) : Act α (Iteration α n σ) β :=
  x.zoom stats (fun s it => { it with stats := s })

def evaluate (x : Vec α n) : Act α (Iteration α n σ) (Vec α n) := do
  Act.update fun it => { it with stats := it.stats.countResidual }
  let it ← Act.read
  Act.ofExcept (it.problem.residual x)

/-- Evaluates the residual at the iterate into the stored one. -/
def refresh : Act α (Iteration α n σ) Unit := do
  Act.update fun it => { it with stats := it.stats.countResidual }
  let it ← Act.read
  let filled := it.problem.residualInto it.u it.fu
  Act.update fun it => { it with fu := filled.array }
  match filled.fault with
  | none => pure ()
  | some e => Act.raise e

def moveTo (x : Vec α n) : Act α (Iteration α n σ) Unit := do
  Act.update fun it => { it with u := x }
  refresh

def adopt (x r : Vec α n) : Act α (Iteration α n σ) Unit :=
  Act.update fun it => { it with u := x, fu := r }

def terminate (name : String) (norm : Norm α) (code : ReturnCode) :
    Act α (Iteration α n σ) Unit := do
  Act.update fun it => { it with code := code, stopped := true }
  let it ← Act.read
  let r := norm.of it.fu
  let steps := it.stats.nsteps
  if code.isSuccess then
    Act.log (.converged name steps r)
    Act.report (.hook (.accept steps it.u.toList r))
  else
    Act.log (.stopped name code steps r)
    Act.report (.hook (.failure steps it.u.toList r))

/-- The code with which the present residual ends a run, if it does. -/
def verdict (o : Options α) (it : Iteration α n σ) : Option ReturnCode :=
  let r := o.norm.of it.fu
  if !Scalar.isFinite r then some .failure
  else if r ≤ o.tolerance then some .success
  else if (o.budget : Int) ≤ it.stats.nsteps then some .maxIters
  else none

variable (m : Method α n σ)

def finish (code : ReturnCode) : Act α (Iteration α n σ) Unit :=
  terminate m.name m.options.norm code

def checkTermination : Act α (Iteration α n σ) Unit := do
  let it ← Act.read
  match it.verdict m.options with
  | some code => finish m code
  | none => pure ()

/-- Counts a step that was taken; one that ended the run is not announced or tested. -/
def conclude : Act α (Iteration α n σ) Unit := do
  Act.update fun it => { it with stats := it.stats.countStep }
  let it ← Act.read
  if it.terminated then pure ()
  else do
    Act.report (.hook (.iteration it.stats.nsteps it.u.toList (m.options.norm.of it.fu)))
    checkTermination m

/-- One step, unless the run is over or ends at once. -/
def step : Act α (Iteration α n σ) Unit := do
  let it ← Act.read
  if it.terminated then pure ()
  else do
    checkTermination m
    let it ← Act.read
    if it.terminated then pure ()
    else do
      m.advance
      conclude m

/-- Steps until the run is over, at most `fuel` of them. -/
def drive : Nat → Act α (Iteration α n σ) Unit
  | 0 => pure ()
  | fuel + 1 => do
    let it ← Act.read
    if it.terminated then pure ()
    else do
      step m
      drive fuel

/-- A step either ends the run or is counted, so no run takes more steps than this. -/
def stepsLeft (it : Iteration α n σ) : Nat := (m.options.budget - it.stats.nsteps).toNat + 1

def toRun (it : Iteration α n σ) : Run α n :=
  ⟨it.u, it.fu, it.code, it.stats, m.name, it.problem⟩

def solve : Act α (Iteration α n σ) (Run α n) := do
  let it ← Act.read
  drive m (it.stepsLeft m)
  let it ← Act.read
  pure (it.toRun m)

def restart : Act α (Iteration α n σ) Unit := do
  Act.update fun it => { it with code := .default, stopped := false }
  refresh
  Act.update fun it => { it with memory := m.restart it.u it.fu }

def blank (problem : Problem α n) : Iteration α n Unit :=
  ⟨problem, problem.start, Vec.zero n, .default, false, {}, ()⟩

/-- A method started on a problem. -/
def start (problem : Problem α n) : Act α Unit (Iteration α n σ) :=
  Act.within (blank problem) do
    refresh
    let it ← Act.read
    pure { it with memory := m.restart it.u it.fu }

/-- Starts over with a new starting point or parameter; without a point, from the stored one. -/
def reinit (start : Option (List α)) (parameter : Option (Parameter α)) :
    Act α (Iteration α n σ) Unit := do
  let it ← Act.read
  let problem ← Act.ofExcept (it.problem.remake start parameter)
  Act.update fun it => { it with problem := problem, u := problem.start, stats := {} }
  restart m

end Iteration

end Rootfinder
