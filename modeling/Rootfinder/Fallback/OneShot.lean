import Rootfinder.Fallback.Report
import Rootfinder.Fallback.Selection

namespace Rootfinder.Fallback

/-- Who solves what, how a candidate is run, and the norm that ranks failures. -/
structure Contest (α : Type) (n : Nat) (κ : Type) where
  owner : Solver
  problem : Problem α n
  norm : Norm α
  solve : κ → Act α Unit (Run α n)

namespace Contest

variable {α κ : Type} [Scalar α] {n : Nat} (c : Contest α n κ)

def attempt (total failures index : Nat) (candidate : κ) :
    Act α (List (AttemptRecord α)) (Run α n) := do
  let run ← Act.within () (c.solve candidate)
  let record := run.record c.norm index
  Act.update (· ++ [record])
  record.report total failures
  pure run

def hand (index : Nat) (run : Run α n) : Act α (List (AttemptRecord α)) (Solution α n) := do
  let records ← Act.read
  pure (run.wrap c.owner (some c.problem) index records run.code)

/-- What candidates arrived at, with their places: the first success, or else all of them. -/
inductive Course (α : Type) (n : Nat) where
  | won (index : Nat) (run : Run α n)
  | lost (failures : List (Nat × Run α n))

/-- Tries candidates from a place on; `failures` are those before it. -/
def course (total : Nat) (failures : List (Nat × Run α n)) :
    List κ → Nat → Act α (List (AttemptRecord α)) (Course α n)
  | [], _ => pure (.lost failures)
  | candidate :: rest, index => do
    let run ← c.attempt total failures.length index candidate
    if run.success then pure (.won index run)
    else course total (failures ++ [(index, run)]) rest (index + 1)

/-- The result of a course: the first success, or else the attempt with the least residual norm. -/
def conclude : Course α n → Act α (List (AttemptRecord α)) (Solution α n)
  | .won index run => c.hand index run
  | .lost failures => do
    let (_, index, run) ←
      Act.ofExcept (Selection.selectBest (fun f => c.norm.of f.2.resid) failures)
    Act.log (.allFailed failures.length index run.solver (c.norm.of run.resid))
    c.hand index run

/-- Tries a list of candidates in order. -/
def solveInOrder (candidates : List κ) : Act α (List (AttemptRecord α)) (Solution α n) :=
  if candidates.isEmpty then Act.raise (.refused .noCandidates)
  else do
    let course ← c.course candidates.length [] candidates 0
    c.conclude course

/-- Tries four candidates in order. -/
def solveFour (first second third fourth : κ) :
    Act α (List (AttemptRecord α)) (Solution α n) := do
  let r0 ← c.attempt 4 0 0 first
  if r0.success then c.hand 0 r0
  else
    let r1 ← c.attempt 4 1 1 second
    if r1.success then c.hand 1 r1
    else
      let r2 ← c.attempt 4 2 2 third
      if r2.success then c.hand 2 r2
      else
        let r3 ← c.attempt 4 3 3 fourth
        if r3.success then c.hand 3 r3
        else
          let (index, run) ←
            Act.ofExcept (Selection.selectBest (fun r => c.norm.of r.resid) [r0, r1, r2, r3])
          Act.log (.allFailed 4 index run.solver (c.norm.of run.resid))
          c.hand index run

end Contest

end Rootfinder.Fallback
