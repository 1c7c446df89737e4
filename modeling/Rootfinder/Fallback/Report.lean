import Rootfinder.Act
import Rootfinder.Solution

namespace Rootfinder.AttemptRecord

variable {α σ : Type}

def report (total failures : Nat) (a : AttemptRecord α) : Act α σ Unit :=
  if a.code.isSuccess then
    if 0 < failures then Act.log (.fallbackConverged a.index a.solver failures) else pure ()
  else if a.index + 1 < total then Act.log (.fallingBack a.index a.solver a.code a.norm)
  else Act.log (.lastFailed a.index a.solver a.code a.norm)

end Rootfinder.AttemptRecord
