import Rootfinder.ReturnCode
import Rootfinder.Value

namespace Rootfinder

/-- The classes of faults that a caller can tell apart. -/
inductive Kind where
  | value
  | type
  | index
  | overflow
  | runtime
  | linearAlgebra
  | solver
  | convergence
  | backend
  | engine
  | state
deriving DecidableEq

def Kind.parent? : Kind → Option Kind
  | .convergence | .backend | .engine => some .solver
  | .state => some .engine
  | _ => none

def Kind.ancestors (k : Kind) : List Kind :=
  k :: match k.parent? with
    | none => []
    | some p => p :: p.parent?.toList

inductive Refusal where
  | mode (given : Value)
  | step
  | alphaReduction
  | minAlpha
  | armijo
  | maxDelta
  | shrinkFactor
  | expandFactor
  | maxShrinkTimes
  | differentiation
  | linearMethod (given : Value)
  | preconditioner
  | concreteJacobian
  | matrixFree
  | scheme (given : Value)
  | unknownSettings (names : List String)
  | lineSearch
  | maxResets
  | preset (given : Value)
  | residual
  | jacobian
  | start (shape : List Nat)
  | size (old new : Nat)
  | noJacobian
  | tolerance
  | budget
  | cursor (count : Nat) (given : Int)
  | nothingToSelect
  | noCandidates
  | noSessions

def shapeText : List Nat → String
  | [n] => "(" ++ toString n ++ ",)"
  | ns => "(" ++ ", ".intercalate (ns.map toString) ++ ")"

def Refusal.message : Refusal → String
  | .mode v => "Invalid mode: " ++ v.shown ++ ". Must be 'forward' or 'central'."
  | .step => "step must be positive"
  | .alphaReduction => "alpha_reduction must lie in (0, 1)"
  | .minAlpha => "min_alpha must lie in (0, 1]"
  | .armijo => "armijo_c must lie in (0, 1)"
  | .maxDelta => "Max delta must be positive"
  | .shrinkFactor => "shrink_factor must lie in (0, 1)"
  | .expandFactor => "expand_factor must be greater than 1"
  | .maxShrinkTimes => "max_shrink_times must be positive"
  | .differentiation => "autodiff must be a DifferentiationConfig"
  | .linearMethod v =>
    "Invalid linsolve: " ++ v.shown ++ ". Must be one of lu, lstsq, gmres or None."
  | .preconditioner => "precs must be callable or None"
  | .concreteJacobian => "concrete_jac must be True, False or None"
  | .matrixFree => "A matrix-free Jacobian requires linsolve='gmres'."
  | .scheme v => "Unknown radius update scheme: " ++ v.written
  | .unknownSettings names => "Unknown configuration parameter(s): " ++ ", ".intercalate names
  | .lineSearch => "linesearch must be a BackTracking configuration or None"
  | .maxResets => "max_resets must be non-negative"
  | .preset v => "Invalid preset: " ++ v.shown ++ ". Must be 'robust' or 'fast'."
  | .residual => "f must be callable"
  | .jacobian => "jac must be callable or None"
  | .start shape => "u0 must be a non-empty vector, got shape " ++ shapeText shape
  | .size old new =>
    "reinit cannot change the problem size (" ++ toString old ++ " -> " ++ toString new ++ ")"
  | .noJacobian => "Problem has no analytic Jacobian"
  | .tolerance => "abstol must be non-negative"
  | .budget => "maxiters must be non-negative"
  | .cursor count given =>
    "current must be in [0, " ++ toString count ++ "], got " ++ toString given
  | .nothingToSelect => "select_best() requires at least one candidate"
  | .noCandidates => "At least one candidate is required"
  | .noSessions => "PolyAlgorithmCache requires at least one candidate cache"

inductive Fault (α : Type) where
  /-- Raised by a function of the caller. -/
  | raised (kind : Kind) (text : String)
  | refused (reason : Refusal)
  | unreadable (reason : Misreading)
  | wrongType
  | unknownOption (name : String)
  | unknownName (name : String)
  | wrongShape
  | outOfRange
  | nonFiniteSystem
  | extraArguments (solver : String) (count : Nat)
  | unsupported (solver : String) (inPlace : Bool)
  | cannotStep (index count : Nat)
  | operatorOnly (method : String)
  | nonFiniteMatrix
  | singular
  /-- Least squares did not converge, in the words of the library. -/
  | unconverged (reason : String)
  | breakdown (info : Int)
  /-- A number is too large to be squared. -/
  | tooLarge
  | noProductiveStep (minAlpha : α)
  | unsolved (code : ReturnCode) (norm : α)
  /-- The step lengths of a line search no longer shrink. -/
  | endless

def Refusal.unless {α : Type} (reason : Refusal) (holds : Bool) : Except (Fault α) Unit :=
  if holds then .ok () else .error (.refused reason)

def Value.compared {α : Type} (v : Value) : Except (Fault α) Float :=
  match v.number? with
  | some x => .ok x
  | Option.none => .error .wrongType

namespace Fault

variable {α : Type}

def kind : Fault α → Kind
  | .raised k _ => k
  | .refused _ => .value
  | .unreadable .wrongType => .type
  | .unreadable .infinite => .overflow
  | .unreadable _ => .value
  | .wrongType => .type
  | .unknownOption _ => .type
  | .unknownName _ => .value
  | .wrongShape => .value
  | .outOfRange => .index
  | .nonFiniteSystem => .value
  | .tooLarge => .overflow
  | .extraArguments _ _ => .type
  | .unsupported _ _ => .backend
  | .cannotStep _ _ => .state
  | .operatorOnly _ => .linearAlgebra
  | .nonFiniteMatrix => .linearAlgebra
  | .singular => .linearAlgebra
  | .unconverged _ => .linearAlgebra
  | .breakdown _ => .linearAlgebra
  | .noProductiveStep _ => .convergence
  | .unsolved _ _ => .convergence
  | .endless => .runtime

def message? : Fault Float → Option String
  | .raised _ text => some text
  | .refused reason => some reason.message
  | .extraArguments solver count =>
    some (solver ++ " takes no extra positional arguments, got " ++ toString count)
  | .unsupported solver inPlace =>
    some (solver ++ " does not support " ++ (if inPlace then "in-place" else "out-of-place")
      ++ " problems")
  | .cannotStep index count =>
    some ("Cannot step candidate " ++ toString index ++ ": cursor must be in [0, "
      ++ toString count ++ ")")
  | .operatorOnly method => some ("linsolve='" ++ method ++ "' needs a concrete Jacobian")
  | .nonFiniteMatrix => some "Jacobian contains non-finite entries"
  | .singular => some "Singular Jacobian"
  | .unconverged reason => some reason
  | .breakdown info => some ("GMRES breakdown (info=" ++ toString info ++ ")")
  | .noProductiveStep minAlpha =>
    some ("Armijo line search failed to find a productive step (min_alpha="
      ++ Decimal.scientific 3 minAlpha ++ ")")
  | .unsolved code norm =>
    some ("Nonlinear solve failed with retcode " ++ code.text ++ " (|F|="
      ++ Decimal.scientific 3 norm ++ ")")
  | _ => none

end Fault

end Rootfinder
