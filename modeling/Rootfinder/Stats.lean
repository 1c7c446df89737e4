namespace Rootfinder

/-- Work done by a solver since it was last started. -/
structure Stats where
  nsteps : Int := 0
  nf : Int := 0
  njacs : Int := 0
  nfactors : Int := 0
  nsolve : Int := 0
deriving DecidableEq, Inhabited

namespace Stats

def toList (s : Stats) : List Int := [s.nsteps, s.nf, s.njacs, s.nfactors, s.nsolve]

def ofList? : List Int → Option Stats
  | [] => some {}
  | [a] => some ⟨a, 0, 0, 0, 0⟩
  | [a, b] => some ⟨a, b, 0, 0, 0⟩
  | [a, b, c] => some ⟨a, b, c, 0, 0⟩
  | [a, b, c, d] => some ⟨a, b, c, d, 0⟩
  | [a, b, c, d, e] => some ⟨a, b, c, d, e⟩
  | _ => none

def add? (s : Stats) (name : String) (k : Int) : Option Stats :=
  match name with
  | "nsteps" => some { s with nsteps := s.nsteps + k }
  | "nf" => some { s with nf := s.nf + k }
  | "njacs" => some { s with njacs := s.njacs + k }
  | "nfactors" => some { s with nfactors := s.nfactors + k }
  | "nsolve" => some { s with nsolve := s.nsolve + k }
  | _ => none

def countStep (s : Stats) : Stats := { s with nsteps := s.nsteps + 1 }
def countResidual (s : Stats) : Stats := { s with nf := s.nf + 1 }
def countJacobian (s : Stats) : Stats := { s with njacs := s.njacs + 1 }
def countFactor (s : Stats) : Stats := { s with nfactors := s.nfactors + 1 }
def countSolve (s : Stats) : Stats := { s with nsolve := s.nsolve + 1 }

end Stats

end Rootfinder
