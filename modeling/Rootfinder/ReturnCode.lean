namespace Rootfinder

/-- How a run ended; `default` while it has not. -/
inductive ReturnCode where
  | default
  | success
  | maxIters
  | stalled
  | shrinkThresholdExceeded
  | failure
deriving DecidableEq, Inhabited

namespace ReturnCode

def all : List ReturnCode :=
  [.default, .success, .maxIters, .stalled, .shrinkThresholdExceeded, .failure]

def text : ReturnCode → String
  | .default => "Default"
  | .success => "Success"
  | .maxIters => "MaxIters"
  | .stalled => "Stalled"
  | .shrinkThresholdExceeded => "ShrinkThresholdExceeded"
  | .failure => "Failure"

def label : ReturnCode → String
  | .default => "DEFAULT"
  | .success => "SUCCESS"
  | .maxIters => "MAX_ITERS"
  | .stalled => "STALLED"
  | .shrinkThresholdExceeded => "SHRINK_THRESHOLD_EXCEEDED"
  | .failure => "FAILURE"

def ofLabel? (s : String) : Option ReturnCode := all.find? (·.label == s)

def isSuccess (c : ReturnCode) : Bool := c == .success

end ReturnCode

end Rootfinder
