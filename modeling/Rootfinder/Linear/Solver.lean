import Rootfinder.Linear.Routines

namespace Rootfinder

inductive LinearMethod where
  | lu
  | lstsq
  | gmres
deriving DecidableEq

namespace LinearMethod

def all : List LinearMethod := [.lu, .lstsq, .gmres]

def name : LinearMethod → String
  | .lu => "lu"
  | .lstsq => "lstsq"
  | .gmres => "gmres"

def named? (s : String) : Option LinearMethod := all.find? (·.name == s)

end LinearMethod

/-- An approximate inverse for the system at an iterate, or none. -/
abbrev Preconditioner (α : Type) :=
  (n : Nat) → Linearized α n → List α → Parameter α → Except (Fault α) (Option (Mat α n n))

structure LinearSolver (α : Type) where
  routines : LinearRoutines α
  method : LinearMethod
  preconditioner : Option (Preconditioner α)
  rtol : α

namespace LinearSolver

variable {α : Type} [Scalar α] {n : Nat}

def defaultRtol : α := 1e-10

def factorize {m : Nat} (s : LinearSolver α) (A : Mat α m n) : Act α Stats (Factorization α m n) :=
  if !A.allFinite then Act.raise .nonFiniteMatrix
  else do
    Act.update Stats.countFactor
    let factors := s.routines.factorize A
    if factors.pivots.any (· == 0.0) then Act.raise .singular else pure factors

def eliminate (s : LinearSolver α) (A : Mat α n n) (b : Vec α n) : Act α Stats (Vec α n) := do
  let factors ← s.factorize A
  pure (factors.solve b)

def leastSquares {m : Nat} (s : LinearSolver α) (A : Mat α m n) (b : Vec α m) :
    Act α Stats (Vec α n) :=
  if A.allFinite && b.allFinite then
    match s.routines.leastSquares A b with
    | .ok x => pure x
    | .error reason => Act.raise (.unconverged reason)
  else Act.raise .nonFiniteSystem

/-- What is made of the end of an iterative solve: one that stopped early counts all the same. -/
def answer (s : LinearSolver α) (x : Vec α n) (info : Int) : Act α Stats (Vec α n) :=
  if info < 0 then Act.raise (.breakdown info)
  else do
    if 0 < info then Act.log (.krylovStopped info s.rtol)
    pure x

/-- The preconditioner is asked before the solve starts. -/
def krylov (s : LinearSolver α) (A : Linearized α n) (b : Vec α n) (u : List α) (p : Parameter α) :
    Act α Stats (Vec α n) := do
  let M ← match s.preconditioner with
    | none => pure none
    | some f => Act.ofExcept (f n A u p)
  let (x, info) ← (s.routines.krylov M b s.rtol).run A.product
  s.answer x info

def solve (s : LinearSolver α) (A : Linearized α n) (b : Vec α n) (u : List α) (p : Parameter α) :
    Act α Stats (Vec α n) := do
  Act.update Stats.countSolve
  match s.method, A with
  | .gmres, A => s.krylov A b u p
  | method, .operator _ => Act.raise (.operatorOnly method.name)
  | .lstsq, .dense A => s.leastSquares A b
  | .lu, .dense A => s.eliminate A b

def eliminateRows (s : LinearSolver α) (A : Mat α n n) (b : List α) : Act α Stats (List α) := do
  let factors ← s.factorize A
  match Vec.ofList? n b with
  | some b => pure (factors.solve b).toList
  | none => Act.raise .wrongShape

def leastSquaresRows {m : Nat} (s : LinearSolver α) (A : Mat α m n) (b : List α) :
    Act α Stats (List α) :=
  match Vec.ofList? m b with
  | some b => do
    let x ← s.leastSquares A b
    pure x.toList
  | none => Act.raise .wrongShape

def solveSquare (s : LinearSolver α) (A : Mat α n n) (matrixFree : Bool) (b u : List α)
    (p : Parameter α) : Act α Stats (List α) :=
  match Vec.ofList? n b with
  | some b => do
    let A := if matrixFree then .operator fun v => pure (A.mulVec v) else .dense A
    let x ← s.solve A b u p
    pure x.toList
  | none => do
    Act.update Stats.countSolve
    match s.method, matrixFree with
    | .gmres, _ => Act.raise .wrongShape
    | method, true => Act.raise (.operatorOnly method.name)
    | .lstsq, false => s.leastSquaresRows A b
    | .lu, false => s.eliminateRows A b

/-- Only least squares have an answer for a matrix that is not square; its elimination shows at most
that a pivot is zero. -/
def solveRectangular {m : Nat} (s : LinearSolver α) (A : Mat α m n) (matrixFree : Bool)
    (b : List α) : Act α Stats (List α) := do
  Act.update Stats.countSolve
  match s.method, matrixFree with
  | .gmres, _ => Act.raise .wrongShape
  | method, true => Act.raise (.operatorOnly method.name)
  | .lstsq, false => s.leastSquaresRows A b
  | .lu, false => do
    let _ ← s.factorize A
    Act.raise .wrongShape

def solveRows (s : LinearSolver α) (rows : List (List α)) (matrixFree : Bool) (b u : List α)
    (p : Parameter α) : Act α Stats (List α) :=
  let width := (rows.headD []).length
  match Mat.ofRows? width width rows, Mat.ofRows? rows.length width rows with
  | some A, _ => s.solveSquare A matrixFree b u p
  | none, some A => s.solveRectangular A matrixFree b
  | none, none => Act.raise .wrongShape

end LinearSolver

end Rootfinder
