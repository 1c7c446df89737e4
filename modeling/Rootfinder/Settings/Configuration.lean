import Rootfinder.Method.Newton
import Rootfinder.Settings.Globalization

namespace Rootfinder

/-- What all candidates of a polyalgorithm share: derivatives and linear solves. -/
structure Configuration where
  differentiation : Differentiation
  linear : Option LinearMethod
  preconditioning : Option Preconditioning
  concrete : Value

namespace Configuration

def initial : Configuration := ⟨Settings.initial, none, none, .none⟩

/-- Whether a value is the constant false; zero equals it but is not. -/
def isFalse : Value → Bool
  | .bool false => true
  | _ => false

def readDifferentiation : Setting → Except (Fault Float) Differentiation
  | .differentiation d => .ok d
  | _ => .error (.refused .differentiation)

def readLinear : Setting → Except (Fault Float) (Option LinearMethod)
  | .plain .none => .ok none
  | .plain (.text s) => match LinearMethod.named? s with
    | some m => .ok (some m)
    | none => .error (.refused (.linearMethod (.text s)))
  | .plain v => .error (.refused (.linearMethod v))
  | s => .error (.refused (.linearMethod (.text s.written)))

def readPreconditioning : Setting → Except (Fault Float) (Option Preconditioning)
  | .plain .none => .ok none
  | .preconditioning p => .ok (some p)
  | _ => .error (.refused .preconditioner)

def readConcrete : Setting → Except (Fault Float) Value
  | .plain .none => .ok .none
  | .plain v =>
    if v.same (.bool true) || v.same (.bool false) then .ok v
    else .error (.refused .concreteJacobian)
  | _ => .error (.refused .concreteJacobian)

instance : Settings Configuration where
  title := "PolyAlgorithmConfig"
  initial := initial
  fields c := [("autodiff", .differentiation c.differentiation),
    ("linsolve", .plain ((c.linear.map fun m => .text m.name).getD .none)),
    ("precs", (c.preconditioning.map .preconditioning).getD .absent),
    ("concrete_jac", .plain c.concrete)]
  ofFields get := do
    let differentiation ← readDifferentiation (get "autodiff")
    let linear ← readLinear (get "linsolve")
    let preconditioning ← readPreconditioning (get "precs")
    let concrete ← readConcrete (get "concrete_jac")
    Refusal.unless .matrixFree (!(isFalse concrete && linear != some .gmres))
    .ok ⟨differentiation, linear, preconditioning, concrete⟩

/-- Whether Jacobians are materialised, as the value that was given for it. A Krylov solve needs no
matrix unless a preconditioner does. -/
def usesConcreteJacobian (c : Configuration) : Value :=
  match c.concrete with
  | .none => .bool (c.linear != some .gmres || c.preconditioning.isSome)
  | v => v

def linearization [LinearRoutines Float] (c : Configuration) : Linearization Float :=
  ⟨c.differentiation.differencing, c.usesConcreteJacobian.same (.bool true), c.linear.getD .lu,
   c.preconditioning.map (·.run), inferInstance⟩

end Configuration

end Rootfinder
