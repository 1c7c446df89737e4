import Rootfinder.Fallback.Report
import Rootfinder.Fallback.Selection
import Rootfinder.Session

namespace Rootfinder

structure Warm (α : Type) [Scalar α] (n : Nat) where
  owner : Solver
  sessions : List (Session α n)
  current : Nat

namespace Warm

variable {α β : Type} [Scalar α] {n : Nat}

/-- Sessions under a cursor on the first; there must be one. -/
def ofSessions (owner : Solver) (sessions : List (Session α n)) : Except (Fault α) (Warm α n) :=
  if sessions.isEmpty then .error (.refused .noSessions) else .ok ⟨owner, sessions, 0⟩

/-- The problem at hand is that of the first session. -/
def problem? (w : Warm α n) : Option (Problem α n) := w.sessions.head?.map Session.problem

/-- The norm that ranks failures is that of the first session. -/
def norm (w : Warm α n) : Norm α := (w.sessions.head?.map (·.options.norm)).getD .l2

def on (i : Nat) (x : Act α (Session α n) β) : Act α (Warm α n) β := fun w =>
  match w.sessions[i]? with
  | none => ⟨.error (.cannotStep i w.sessions.length), w, []⟩
  | some s =>
    let o := x s
    ⟨o.result, { w with sessions := w.sessions.set i o.state }, o.trace⟩

/-- Solves the session at the cursor completely; the cursor stays. -/
def performStep : Act α (Warm α n) (Run α n) := do
  let w ← Act.read
  on w.current Session.solve

/-- Puts the cursor on a session, or behind the last. -/
def setCurrent (value : Value) : Act α (Warm α n) Unit := do
  let w ← Act.read
  match value.truncated with
  | .error e => Act.raise (.unreadable e)
  | .ok k =>
    if 0 ≤ k ∧ k ≤ w.sessions.length then Act.update fun w => { w with current := k.toNat }
    else Act.raise (.refused (.cursor w.sessions.length k))

/-- Drives up to `left` sessions from the cursor on, until one succeeds. -/
def drive (norm : Norm α) : Nat → List (AttemptRecord α) →
    Act α (Warm α n) (Option (Nat × Run α n) × List (AttemptRecord α))
  | 0, records => pure (none, records)
  | left + 1, records => do
    let w ← Act.read
    let run ← performStep
    let record := run.record norm w.current
    record.report w.sessions.length records.length
    if run.success then pure (some (w.current, run), records ++ [record])
    else
      Act.update fun w => { w with current := w.current + 1 }
      drive norm left (records ++ [record])

/-- The result after sessions were driven: the run that succeeded, or the session with the least
residual norm, whether it was driven or not. The owner and the norm are those of `w`. -/
def conclude (w : Warm α n) :
    Option (Nat × Run α n) × List (AttemptRecord α) → Act α (Warm α n) (Solution α n)
  | (some (index, run), records) => do
    let after ← Act.read
    pure (run.wrap w.owner after.problem? index records .success)
  | (none, records) => do
    let after ← Act.read
    let (index, s) ←
      Act.ofExcept (Selection.selectBest (fun s => s.residualNorm (some w.norm)) after.sessions)
    let run := s.snapshot
    Act.log (.allFailed after.sessions.length index run.solver (w.norm.of run.resid))
    pure (run.wrap w.owner after.problem? index records .maxIters)

/-- Drives sessions from the cursor on until one succeeds, and hands out the result. -/
def solve : Act α (Warm α n) (Solution α n) := do
  let w ← Act.read
  if w.sessions.length ≤ w.current then Act.log .exhausted
  let driven ← drive w.norm (w.sessions.length - w.current) []
  w.conclude driven

def reinit (start : Option (List α)) (parameter : Option (Parameter α)) :
    Act α (Warm α n) Unit :=
  Act.zoom sessions (fun ss w => { w with sessions := ss })
    (Act.each (Session.reinit start parameter))

/-- Starts all sessions over from a point that is still to be read, or from their stored ones. -/
def reinitAt (start : Value) (parameter : Option (Parameter Float)) :
    Act Float (Warm Float n) Unit :=
  match start with
  | .none => reinit none parameter
  | v => do
    let xs ← Act.ofExcept v.startingPoint
    reinit (some xs) parameter

def text (w : Warm α n) : String :=
  "PolyAlgorithmCache(alg=" ++ w.owner.text ++ ", current=" ++ toString w.current ++ ", n="
    ++ toString w.sessions.length ++ ")"

end Warm

end Rootfinder
