import Rootfinder.Candidate
import Rootfinder.Fallback.OneShot
import Rootfinder.Fallback.Warm

namespace Rootfinder

inductive Preset where
  | robust
  | fast
deriving DecidableEq

namespace Preset

def name : Preset → String
  | .robust => "robust"
  | .fast => "fast"

def title : Preset → String
  | .robust => "RobustMultiNewton"
  | .fast => "FastShortcutNonlinearPolyalg"

def ofValue (v : Value) : Except (Fault Float) Preset :=
  match [robust, fast].find? fun p => v.same (.text p.name) with
  | some p => .ok p
  | none => .error (.refused (.preset v))

variable (c : Configuration)

def newton : Candidate := .newton none c

def damped : Candidate := .newton (some Settings.initial) c

def robustCandidates : List Candidate :=
  [.customary .simple c, .customary .bastin c, damped c, .customary .nlsolve c, .customary .fan c]

/-- Cheap steps first, then trust regions. -/
def fastCandidates : List Candidate :=
  [newton c, damped c, .customary .simple c, .customary .bastin c]

def shortcuts : List Candidate :=
  [.klement Candidate.defaultLimit c, .broyden Candidate.defaultLimit c]

/-- The candidates for a calling convention; those for repeated solves are without shortcuts. -/
def candidates (inPlace persistent : Bool) : Preset → List Candidate
  | .robust => robustCandidates c
  | .fast =>
    if persistent then fastCandidates c
    else (shortcuts c).filter (·.supports inPlace) ++ fastCandidates c

end Preset

/-- Sets candidates to work on a problem, one after the other, and keeps them all. -/
def Warm.ofCandidates [LinearRoutines Float] {n : Nat} (owner : Solver)
    (candidates : List Candidate) (call : Call) (problem : Problem Float n) :
    Act Float Unit (Warm Float n) := do
  let sessions ← candidates.mapM (·.init call problem)
  Act.ofExcept (Warm.ofSessions owner sessions)

structure Polyalgorithm where
  preset : Preset
  configuration : Configuration

namespace Polyalgorithm

/-- What is taken where no algorithm is given. -/
def standard : Polyalgorithm := ⟨.fast, Settings.initial⟩

def baseName : String := "config"

/-- Whether a keyword may be given with a configuration: it names a field, or says that there is no
configuration when there is none. -/
def accepts (base : Option Configuration) (given : String × Setting) : Bool :=
  (Settings.names Configuration).contains given.1 ||
    (given.1 == baseName && given.2.isAbsent && base.isNone)

def make (preset : Preset) (base : Option Configuration) (given : Keywords) :
    Except (Fault Float) Polyalgorithm :=
  match given.find? fun kv => !accepts base kv with
  | some kv => .error (.unknownOption kv.1)
  | none => do
    .ok ⟨preset, (← Settings.merge (base.getD Settings.initial) given).settings⟩

def update (p : Polyalgorithm) (given : Keywords) : Except (Fault Float) Polyalgorithm := do
  .ok { p with configuration := (← Settings.merge p.configuration given).settings }

def text (p : Polyalgorithm) : String :=
  p.preset.title ++ "(" ++ Settings.text p.configuration ++ ")"

def solver (p : Polyalgorithm) : Solver := ⟨p.preset.title, p.text⟩

def candidates (p : Polyalgorithm) (inPlace persistent : Bool) : List Candidate :=
  p.preset.candidates p.configuration inPlace persistent

variable [LinearRoutines Float] {n : Nat}

/-- Sets all candidates to work, for repeated solves. -/
def init (p : Polyalgorithm) (call : Call) (problem : Problem Float n) :
    Act Float Unit (Warm Float n) :=
  Warm.ofCandidates p.solver (p.candidates problem.system.isInPlace true) call problem

def contest (p : Polyalgorithm) (call : Call) (problem : Problem Float n) :
    Fallback.Contest Float n Candidate :=
  ⟨p.solver, problem, call.normOrDefault, fun c => c.solve call problem⟩

/-- Solves with fresh candidates, shortcuts included. -/
def solveList (p : Polyalgorithm) (call : Call) (problem : Problem Float n) :
    Act Float Unit (Solution Float n) :=
  Act.within []
    ((p.contest call problem).solveInOrder (p.candidates problem.system.isInPlace false))

/-- Solves with the four candidates that need no values returned. -/
def solveFour (p : Polyalgorithm) (call : Call) (problem : Problem Float n) :
    Act Float Unit (Solution Float n) :=
  let c := p.configuration
  Act.within []
    ((p.contest call problem).solveFour (.newton none c) (.newton (some Settings.initial) c)
      (.customary .simple c) (.customary .bastin c))

def solveWarm (p : Polyalgorithm) (call : Call) (problem : Problem Float n) :
    Act Float Unit (Solution Float n) := do
  let w ← p.init call problem
  Act.within w Warm.solve

/-- Solves once, in the way the preset does. -/
def solve (p : Polyalgorithm) (call : Call) (problem : Problem Float n) :
    Act Float Unit (Solution Float n) :=
  match p.preset with
  | .robust => p.solveWarm call problem
  | .fast =>
    if problem.system.isInPlace then p.solveFour call problem else p.solveList call problem

end Polyalgorithm

end Rootfinder
