import Rootfinder.Norm
import Rootfinder.Problem
import Rootfinder.Stats

namespace Rootfinder

/-- How a solver is named in records, and how it is written out. -/
structure Solver where
  title : String
  text : String

/-- What one candidate arrived at. -/
structure Run (α : Type) (n : Nat) where
  u : Vec α n
  resid : Vec α n
  code : ReturnCode
  stats : Stats
  solver : String
  problem : Problem α n

/-- One candidate tried by a fallback driver. -/
structure AttemptRecord (α : Type) where
  index : Int
  solver : String
  code : ReturnCode
  norm : α
  steps : Int

/-- The result of a solve; `original` is the run of the candidate that produced it. -/
structure Solution (α : Type) (n : Nat) where
  u : Vec α n
  resid : Vec α n
  code : ReturnCode
  stats : Stats
  solver : Option String
  problem : Option (Problem α n)
  original : Option (Run α n)
  candidate : Option Nat
  attempts : List (AttemptRecord α)

variable {α : Type} [Scalar α] {n : Nat}

namespace Run

def success (r : Run α n) : Bool := r.code.isSuccess

def record (r : Run α n) (norm : Norm α) (index : Nat) : AttemptRecord α :=
  ⟨index, r.solver, r.code, norm.of r.resid, r.stats.nsteps⟩

/-- A run that is handed out by itself. -/
def toSolution (r : Run α n) : Solution α n :=
  ⟨r.u, r.resid, r.code, r.stats, some r.solver, some r.problem, none, none, []⟩

def wrap (r : Run α n) (owner : Solver) (problem : Option (Problem α n)) (index : Nat)
    (attempts : List (AttemptRecord α)) (code : ReturnCode) : Solution α n :=
  ⟨r.u, r.resid, code, r.stats, some owner.title, problem, some r, some index, attempts⟩

end Run

namespace Solution

def success (s : Solution α n) : Bool := s.code.isSuccess

def residualNorm (s : Solution α n) (norm : Norm α) : α := norm.of s.resid

def requireSuccess (s : Solution α n) : Except (Fault α) (Solution α n) :=
  if s.success then .ok s else .error (.unsolved s.code (s.residualNorm .l2))

def columns : List String := ["index", "candidate", "retcode", "residual_norm", "nsteps"]

end Solution

end Rootfinder
