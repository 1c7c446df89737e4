import Rootfinder.Polyalgorithm
import Rootfinder.Journal
import Rootfinder.Proofs.Counters
import Rootfinder.Proofs.Methods
import Rootfinder.Proofs.Residual
import Rootfinder.Proofs.Progress
import Rootfinder.Proofs.Ranking
import Rootfinder.Proofs.Sessions
import Rootfinder.Proofs.Warm
import Rootfinder.Proofs.OneShot
import Rootfinder.Proofs.Candidates
import Rootfinder.Proofs.Agreement
import Rootfinder.Proofs.History
import Rootfinder.Proofs.Soundness
import Rootfinder.Proofs.Reports
import Rootfinder.Proofs.RunDecomposition
import Rootfinder.Proofs.Restarts
import Rootfinder.Proofs.Budget
import Rootfinder.Proofs.GreaterTolerance
import Rootfinder.Proofs.Interleaving
import Rootfinder.Proofs.Quitting
import Rootfinder.Proofs.Endings
import Rootfinder.Proofs.Cursor
import Rootfinder.Proofs.Convergence
import Rootfinder.Proofs.Recovery
import Rootfinder.Proofs.Shortcuts
import Rootfinder.Proofs.Lockstep
import Rootfinder.Proofs.LockstepUpTo
import Rootfinder.Proofs.Conventions
import Rootfinder.Proofs.MatrixFree
import Rootfinder.Proofs.Confined
import Rootfinder.Proofs.RaisingSolves
import Rootfinder.Proofs.Configurations
import Rootfinder.Proofs.Representations
import Rootfinder.Proofs.Refusals
import Rootfinder.Proofs.SharedProblem
import Rootfinder.Proofs.Interruptions
import Rootfinder.Proofs.Successes
import Rootfinder.Proofs.Silence
import Rootfinder.Proofs.Hooks
import Rootfinder.Proofs.Rounding
import Rootfinder.Proofs.Doubles
import Rootfinder.Proofs.Armijo
import Rootfinder.Proofs.Descent
import Rootfinder.Proofs.Exact
import Rootfinder.Proofs.Dogleg
import Rootfinder.Proofs.TrustRegionSteps
import Rootfinder.Proofs.RejectedTrials
import Rootfinder.Proofs.FiniteValues
import Rootfinder.Proofs.Regions
import Rootfinder.Proofs.Shrinking
import Rootfinder.Proofs.RememberedJacobian
import Rootfinder.Proofs.Accounting
import Rootfinder.Proofs.InverseEstimate
import Rootfinder.Proofs.SecantSlope
import Rootfinder.Proofs.Differences
import Rootfinder.Proofs.Resets
import Rootfinder.Proofs.Denominators
import Rootfinder.Proofs.Norms
import Rootfinder.Proofs.Lengths
import Rootfinder.Proofs.Counts
import Rootfinder.Proofs.LogTrail
import Rootfinder.Proofs.Ranges
