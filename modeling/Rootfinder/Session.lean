import Rootfinder.Algorithm

namespace Rootfinder

structure Session (α : Type) [Scalar α] (n : Nat) where
  algorithm : Algorithm α
  options : Options α
  iteration : Iteration α n (algorithm.Memory n)

namespace Session

variable {α β : Type} [Scalar α] {n : Nat}

def method (s : Session α n) : Method α n (s.algorithm.Memory n) :=
  s.algorithm.method s.options n

def on (x : (s : Session α n) → Act α (Iteration α n (s.algorithm.Memory n)) β) :
    Act α (Session α n) β := fun s =>
  let o := x s s.iteration
  ⟨o.result, { s with iteration := o.state }, o.trace⟩

def start (a : Algorithm α) (o : Options α) (problem : Problem α n) :
    Act α Unit (Session α n) := do
  let iteration ← Iteration.start (a.method o n) problem
  pure ⟨a, o, iteration⟩

def step : Act α (Session α n) Unit := on fun s => Iteration.step s.method

/-- Steps until the run is over. -/
def solve : Act α (Session α n) (Run α n) := on fun s => Iteration.solve s.method

def reinit (start : Option (List α)) (parameter : Option (Parameter α)) :
    Act α (Session α n) Unit :=
  on fun s => Iteration.reinit s.method start parameter

/-- Starts over from a point that is still to be read; without one, from the stored point. -/
def reinitAt (start : Value) (parameter : Option (Parameter Float)) :
    Act Float (Session Float n) Unit :=
  match start with
  | .none => reinit none parameter
  | v => do
    let xs ← Act.ofExcept v.startingPoint
    reinit (some xs) parameter

variable (s : Session α n)

def problem : Problem α n := s.iteration.problem

def residualNorm (norm : Option (Norm α)) : α :=
  (norm.getD s.options.norm).of s.iteration.fu

/-- What has been reached so far, finished or not. -/
def snapshot : Run α n := s.iteration.toRun s.method

end Session

end Rootfinder
