import Rootfinder.Linear.Elimination
import Rootfinder.Linear.Krylov
import Rootfinder.Linear.LeastSquares

namespace Rootfinder

variable {α : Type} [Scalar α]

/-- Elimination with partial pivoting, least squares by singular values, and restarted generalized
minimal residuals. -/
instance LinearRoutines.textbook : LinearRoutines α where
  factorize := Elimination.factorize
  leastSquares A b := .ok (LeastSquares.solve A b)
  krylov M := Krylov.solve (M.elim id Mat.mulVec)

end Rootfinder
