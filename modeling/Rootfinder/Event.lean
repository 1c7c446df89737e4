import Rootfinder.Fault

namespace Rootfinder

inductive Level where
  | debug
  | info
  | warning
deriving DecidableEq

namespace Level

def rank : Level → Nat
  | .debug => 10
  | .info => 20
  | .warning => 30

def text : Level → String
  | .debug => "DEBUG"
  | .info => "INFO"
  | .warning => "WARNING"

end Level

/-- A log record. -/
inductive Note (α : Type) where
  | capped (norm cap : α)
  | nonFiniteTrial (alpha : α)
  | productive (alpha norm before : α)
  | bestTaken (alpha norm : α)
  | krylovStopped (count : Int) (rtol : α)
  | linearSolveFailed (solver : String) (step : Int) (fault : Fault α)
  | lineSearchFailed (solver : String) (fault : Fault α)
  | shrankRepeatedly (solver : String) (times : Nat)
  | estimateReset (solver : String) (resets limit : Nat)
  | converged (solver : String) (steps : Int) (norm : α)
  | stopped (solver : String) (code : ReturnCode) (steps : Int) (norm : α)
  | fallbackConverged (index : Int) (solver : String) (fallbacks : Nat)
  | fallingBack (index : Int) (solver : String) (code : ReturnCode) (norm : α)
  | lastFailed (index : Int) (solver : String) (code : ReturnCode) (norm : α)
  | allFailed (count index : Nat) (solver : String) (norm : α)
  | exhausted

namespace Note

variable {α : Type}

def level : Note α → Level
  | .fallbackConverged .. | .fallingBack .. | .lastFailed .. => .info
  | .allFailed .. | .exhausted => .warning
  | _ => .debug

private def short (x : Float) : String := Decimal.scientific 3 x

private def long (x : Float) : String := Decimal.scientific 4 x

def text : Note Float → String
  | .capped norm cap =>
    "Capping Newton step (|delta|=" ++ short norm ++ " > " ++ short cap ++ ")"
  | .nonFiniteTrial alpha =>
    "Non-finite residual at alpha=" ++ long alpha ++ "; trying smaller step"
  | .productive alpha norm before =>
    "Armijo success: alpha=" ++ long alpha ++ ", |r|=" ++ long norm ++ " (was |r0|="
      ++ long before ++ ")"
  | .bestTaken alpha norm =>
    "Line search exhausted; using best found step (alpha=" ++ long alpha ++ ", |r|=" ++ long norm
      ++ ")"
  | .krylovStopped count rtol =>
    "GMRES stopped after " ++ toString count ++ " iterations without reaching rtol="
      ++ Decimal.scientific 2 rtol
  | .linearSolveFailed solver step fault =>
    solver ++ ": linear solve failed at step " ++ toString step ++ ": " ++ fault.message?.getD ""
  | .lineSearchFailed solver fault => solver ++ ": " ++ fault.message?.getD ""
  | .shrankRepeatedly solver times =>
    solver ++ ": radius shrank " ++ toString times ++ " times in a row"
  | .estimateReset solver resets limit =>
    solver ++ ": resetting Jacobian estimate (" ++ toString resets ++ "/" ++ toString limit ++ ")"
  | .converged solver steps norm =>
    solver ++ " converged after " ++ toString steps ++ " iterations (|F|=" ++ short norm ++ ")"
  | .stopped solver code steps norm =>
    solver ++ " stopped with " ++ code.text ++ " after " ++ toString steps ++ " iterations (|F|="
      ++ short norm ++ ")"
  | .fallbackConverged index solver fallbacks =>
    "Candidate " ++ toString index ++ " (" ++ solver ++ ") converged after " ++ toString fallbacks
      ++ " fallback(s)"
  | .fallingBack index solver code norm =>
    "Candidate " ++ toString index ++ " (" ++ solver ++ ") failed with " ++ code.text ++ " (|F|="
      ++ short norm ++ "), falling back"
  | .lastFailed index solver code norm =>
    "Last candidate " ++ toString index ++ " (" ++ solver ++ ") failed with " ++ code.text
      ++ " (|F|=" ++ short norm ++ ")"
  | .allFailed count index solver norm =>
    "All " ++ toString count ++ " candidates failed; returning candidate " ++ toString index
      ++ " (" ++ solver ++ ", |F|=" ++ short norm ++ ")"
  | .exhausted =>
    "All candidates already exhausted; call reinit and reset current to solve again"

/-- A record as it is listed, with its level in front. -/
def line (note : Note Float) : String := note.level.text ++ " " ++ note.text

end Note

/-- A call of a lifecycle hook: the iterate and the residual norm at that moment. -/
inductive Hook (α : Type) where
  | iteration (count : Int) (iterate : List α) (norm : α)
  | accept (iterations : Int) (iterate : List α) (norm : α)
  | failure (iterations : Int) (iterate : List α) (norm : α)

inductive Event (α : Type) where
  | note (n : Note α)
  | hook (h : Hook α)

namespace Event

variable {α : Type}

def notes (events : List (Event α)) : List (Note α) :=
  events.filterMap fun | .note n => some n | .hook _ => none

def hooks (events : List (Event α)) : List (Hook α) :=
  events.filterMap fun | .hook h => some h | .note _ => none

end Event

end Rootfinder
