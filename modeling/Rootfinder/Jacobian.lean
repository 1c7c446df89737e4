import Rootfinder.Act
import Rootfinder.Problem
import Rootfinder.Stats

namespace Rootfinder

/-- How derivatives are approximated; `step` is the perturbation relative to the iterate. A step
that cannot be used is noticed at the first difference. -/
structure Differencing (α : Type) where
  central : Bool
  step : Except (Fault α) α

/-- A linear map, as a matrix or by its products. -/
inductive Linearized (α : Type) (n : Nat) where
  | dense (J : Mat α n n)
  | operator (product : Vec α n → Act α Stats (Vec α n))

namespace Linearized

variable {α : Type} [Scalar α] {n : Nat}

def product : Linearized α n → Vec α n → Act α Stats (Vec α n)
  | .dense J, v => pure (J.mulVec v)
  | .operator f, v => f v

def matrix? : Linearized α n → Option (Mat α n n)
  | .dense J => some J
  | .operator _ => none

def isDense : Linearized α n → Bool
  | .dense _ => true
  | .operator _ => false

end Linearized

namespace Jacobian

variable {α : Type} [Scalar α] {n : Nat}

/-- An evaluation of the residual; one that raises is not counted. -/
def probe (prob : Problem α n) (u : Vec α n) : Act α Stats (Vec α n) := do
  let r ← Act.ofExcept (prob.residual u)
  Act.update Stats.countResidual
  pure r

def stepLength (step : α) (u : Vec α n) (length : α) : α :=
  step * Scalar.larger 1.0 u.euclid / length

/-- The difference quotient along `v` taken to be of some length; `fu` is the residual at `u`. -/
def quotient (prob : Problem α n) (d : Differencing α) (u fu : Vec α n) (length : α)
    (v : Except (Fault α) (Vec α n)) : Act α Stats (Vec α n) :=
  if length == 0.0 then pure (Vec.zero n)
  else do
    let step ← Act.ofExcept d.step
    let v ← Act.ofExcept v
    let h := stepLength step u length
    let ahead ← probe prob (u + Vec.scale h v)
    if d.central then
      let behind ← probe prob (u - Vec.scale h v)
      pure (Vec.divide (ahead - behind) (2.0 * h))
    else
      pure (Vec.divide (ahead - fu) h)

/-- The difference quotient along `v`. -/
def directional (prob : Problem α n) (d : Differencing α) (u fu v : Vec α n) :
    Act α Stats (Vec α n) :=
  quotient prob d u fu v.euclid (.ok v)

/-- The difference quotient along components that are not counted yet. Their length is taken
before a single one is repeated. -/
def directionalAlong (prob : Problem α n) (d : Differencing α) (u fu : Vec α n)
    (components : List α) : Act α Stats (Vec α n) :=
  quotient prob d u fu (Vec.counted components).euclid (Vec.spread n components)

/-- Column by column, the difference quotient along each unit vector. -/
def differences (prob : Problem α n) (d : Differencing α) (u fu : Vec α n) :
    Act α Stats (Mat α n n) :=
  (List.finRange n).foldlM
    (fun J j => do
      let c ← directional prob d u fu (Vec.unit j)
      pure (J.setColumn j c))
    (Mat.zero n n)

def matrix (prob : Problem α n) (d : Differencing α) (u fu : Vec α n) : Act α Stats (Mat α n n) :=
  if prob.system.hasJacobian then Act.ofExcept (prob.jacobian u)
  else differences prob d u fu

/-- The products with the Jacobian at `u`; later changes of the iterate do not reach them. -/
def operator (prob : Problem α n) (d : Differencing α) (u fu : Vec α n) :
    Act α Stats (Linearized α n) :=
  if prob.system.hasJacobian then do
    let J ← Act.ofExcept (prob.jacobian u)
    pure (.operator fun v => pure (J.mulVec v))
  else pure (.operator (directional prob d u fu))

/-- The Jacobian as a matrix. -/
def dense (prob : Problem α n) (d : Differencing α) (u fu : Vec α n) : Act α Stats (Mat α n n) := do
  Act.update Stats.countJacobian
  matrix prob d u fu

/-- The Jacobian in the representation asked for. -/
def build (concrete : Bool) (prob : Problem α n) (d : Differencing α) (u fu : Vec α n) :
    Act α Stats (Linearized α n) := do
  Act.update Stats.countJacobian
  if concrete then
    let J ← matrix prob d u fu
    pure (.dense J)
  else operator prob d u fu

end Jacobian

end Rootfinder
