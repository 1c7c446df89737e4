import Rootfinder.Method.Newton

namespace Rootfinder.TrustRegion

/-- The rules by which the radius follows the reduction ratio. -/
inductive Scheme where
  | simple
  | nlsolve
  | bastin
  | fan
deriving DecidableEq

namespace Scheme

def all : List Scheme := [.simple, .nlsolve, .bastin, .fan]

def name : Scheme → String
  | .simple => "simple"
  | .nlsolve => "nlsolve"
  | .bastin => "bastin"
  | .fan => "fan"

def named? (s : String) : Option Scheme := all.find? (·.name == s)

def title (s : Scheme) : String := s.name.capitalize

def label (s : Scheme) : String := s.name.map Char.toUpper

end Scheme

/-- A bound on the reduction ratio: a number, a place strictly between two neighbouring numbers, or
a value without order. -/
inductive Threshold (α : Type) where
  | value (x : α)
  | between (lo hi : α)
  | unordered

namespace Threshold

variable {α : Type} [Scalar α]

def exceededBy (rho : α) : Threshold α → Except (Fault α) Bool
  | .value x => .ok (x < rho)
  | .between _ hi => .ok (hi ≤ rho)
  | .unordered => .error .wrongType

def attainedBy (rho : α) : Threshold α → Except (Fault α) Bool
  | .value x => .ok (x ≤ rho)
  | .between _ hi => .ok (hi ≤ rho)
  | .unordered => .error .wrongType

def missedBy (rho : α) : Threshold α → Except (Fault α) Bool
  | .value x => .ok (rho < x)
  | .between lo _ => .ok (rho ≤ lo)
  | .unordered => .error .wrongType

def keptBy (rho : α) : Threshold α → Except (Fault α) Bool
  | .value x => .ok (rho ≤ x)
  | .between lo _ => .ok (rho ≤ lo)
  | .unordered => .error .wrongType

end Threshold

/-- Thresholds on the reduction ratio, factors of the radius, and the greatest number of shrinking
steps in a row, if there is one. An expansion factor that cannot be used is noticed when the radius
is to grow. -/
structure Params (α : Type) where
  stepThreshold : Threshold α
  shrinkThreshold : Threshold α
  expandThreshold : Threshold α
  shrinkFactor : α
  expandFactor : Except (Fault α) α
  maxShrinkTimes : Option Nat

/-- What a trust region remembers between steps; a Jacobian is kept while the iterate stays. -/
structure Memory (α : Type) (n : Nat) where
  radius : α
  maxRadius : α
  mu : α
  shrinks : Nat
  jacobian : Option (Mat α n n)

variable {α : Type} [Scalar α] {n : Nat}

/-- Fan's radius: almost proportional to the residual, and never zero. -/
def fanRadius (mu : α) (fu : Vec α n) : α :=
  Scalar.larger (mu * Scalar.pow fu.euclid 0.99) Scalar.tiny

def simpleMaxRadius (u fu : Vec α n) : α :=
  Scalar.larger (Scalar.larger fu.euclid (u.greatest - u.least)) 1.0

def fresh (scheme : Scheme) (u fu : Vec α n) : Memory α n :=
  match scheme with
  | .simple =>
    let r := simpleMaxRadius u fu
    ⟨r / 11.0, r, 1.0, 0, none⟩
  | .nlsolve =>
    ⟨if u.euclid == 0.0 then 1.0 else 10.0 * u.euclid, Scalar.infinity, 1.0, 0, none⟩
  | .bastin => ⟨1.0, Scalar.infinity, 1.0, 0, none⟩
  | .fan => ⟨fanRadius 1.0 fu, Scalar.infinity, 1.0, 0, none⟩

/-- The point between the Cauchy step and the Newton step that lies on the sphere. -/
def between (cauchy newton : Vec α n) (radius : α) : Vec α n :=
  let d := newton - cauchy
  let a := Vec.dot d d
  let b := 2.0 * Vec.dot cauchy d
  let c := Vec.dot cauchy cauchy - Scalar.pow radius 2.0
  let tau :=
    if 0.0 < a then
      (-b + Scalar.sqrt (Scalar.larger (b * b - 4.0 * a * c) 0.0)) / (2.0 * a)
    else 0.0
  cauchy + Vec.scale (Scalar.smaller (Scalar.larger tau 0.0) 1.0) d

def cauchyLength (J : Mat α n n) (g : Vec α n) : α :=
  let Jg := J.mulVec g
  let square := Vec.dot Jg Jg
  if 0.0 < square then Scalar.pow g.euclid 2.0 / square else Scalar.infinity

def dogleg (J : Mat α n n) (fu : Vec α n) (radius : α) (newton : Option (Vec α n)) : Vec α n :=
  let g := J.transpose.mulVec fu
  let size := g.euclid
  match newton with
  | none =>
    if size == 0.0 then Vec.zero n else Vec.scale (-(radius / size)) g
  | some s =>
    if s.euclid ≤ radius then s
    else if size == 0.0 then s.map (· * (radius / s.euclid))
    else
      let t := cauchyLength J g
      if radius ≤ t * size then Vec.scale (-(radius / size)) g
      else between (Vec.scale (-t) g) s radius

/-- Whether the step lies between the Cauchy point and the Newton step: the one is inside the ball
and the other is not. -/
def bends (J : Mat α n n) (fu : Vec α n) (radius : α) (newton : Option (Vec α n)) : Bool :=
  let g := J.transpose.mulVec fu
  let size := g.euclid
  newton.any fun s =>
    !(s.euclid ≤ radius || size == 0.0 || radius ≤ cauchyLength J g * size)

/-- Whether the square of a number is beyond all numbers, which product and power agree on. -/
def tooLarge (x : α) : Bool := !Scalar.isInf x && Scalar.isInf (x * x)

/-- The dogleg step. The point on the sphere takes the square of the radius, and is not found where
the radius is too large for one. -/
def doglegStep (J : Mat α n n) (fu : Vec α n) (radius : α) (newton : Option (Vec α n)) :
    Except (Fault α) (Vec α n) :=
  if bends J fu radius newton && tooLarge radius then .error .tooLarge
  else .ok (dogleg J fu radius newton)

theorem doglegStep_cases (J : Mat α n n) (fu : Vec α n) (radius : α) (newton : Option (Vec α n)) :
    doglegStep J fu radius newton = .ok (dogleg J fu radius newton) ∨
      doglegStep J fu radius newton = .error .tooLarge ∧ bends J fu radius newton = true ∧
        tooLarge radius = true := by
  unfold doglegStep
  split
  · rename_i h
    exact .inr ⟨rfl, (Bool.and_eq_true _ _).mp h⟩
  · exact .inl rfl

/-- The halved square that the model and the reduction ratio are about. -/
def loss (r : Vec α n) : α := 0.5 * Vec.dot r r

/-- Actual over predicted reduction; without a predicted one or with a useless trial, the least. -/
def reductionRatio (J : Mat α n n) (fu s fuTrial : Vec α n) : α :=
  let predicted := loss fu - loss (fu + J.mulVec s)
  let actual := loss fu - loss fuTrial
  if 0.0 < predicted && Scalar.isFinite (loss fuTrial) then actual / predicted
  else -Scalar.infinity

/-- Ratio of the reductions when the new model is followed backwards along the step. -/
def retrospectiveRatio (J : Mat α n n) (fuOld fu s : Vec α n) : α :=
  let predicted := loss (fu - J.mulVec s) - loss fu
  let actual := loss fuOld - loss fu
  if 0.0 < predicted then actual / predicted else 0.0

section Rules

variable (prm : Params α)

def shrink : Act α (Memory α n) Unit :=
  Act.update fun m => { m with radius := m.radius * prm.shrinkFactor, shrinks := m.shrinks + 1 }

def recover : Act α (Memory α n) Unit := Act.update fun m => { m with shrinks := 0 }

def expand (f : α → Memory α n → Memory α n) : Act α (Memory α n) Unit := do
  let factor ← Act.ofExcept prm.expandFactor
  Act.update (f factor)

def accepts (rho : α) : Act α (Memory α n) Bool := Act.ofExcept (prm.stepThreshold.exceededBy rho)

def expandSimple (rho size : α) : Act α (Memory α n) Unit := do
  let good ← Act.ofExcept (prm.expandThreshold.exceededBy rho)
  let m ← Act.read
  if good && 0.9 * m.radius ≤ size then
    expand prm fun factor m => { m with radius := Scalar.smaller (factor * m.radius) m.maxRadius }

def updateSimple (rho size : α) : Act α (Memory α n) Bool := do
  if ← Act.ofExcept (prm.shrinkThreshold.missedBy rho) then shrink prm else recover
  let accepted ← accepts prm rho
  if accepted then expandSimple prm rho size
  pure accepted

def expandNlsolve (rho size : α) : Act α (Memory α n) Unit := do
  if ← Act.ofExcept (prm.expandThreshold.attainedBy rho) then
    expand prm fun factor m => { m with radius := factor * size }
  else if 0.5 ≤ rho then
    expand prm fun factor m => { m with radius := Scalar.larger m.radius (factor * size) }

def updateNlsolve (rho size : α) : Act α (Memory α n) Bool := do
  if ← Act.ofExcept (prm.shrinkThreshold.missedBy rho) then shrink prm
  else
    recover
    expandNlsolve prm rho size
  accepts prm rho

def adjustBastin (ratio size : α) : Act α (Memory α n) Unit := do
  if ← Act.ofExcept (prm.expandThreshold.attainedBy ratio) then
    expand prm fun factor m => { m with radius := Scalar.larger (factor * size) m.radius }
  else if ← Act.ofExcept (prm.shrinkThreshold.missedBy ratio) then
    Act.update fun m =>
      { m with radius := Scalar.larger (prm.shrinkFactor * m.radius) Scalar.tiny }

def scaleFan (rho : α) : Act α (Memory α n) Unit := do
  if ← Act.ofExcept (prm.shrinkThreshold.missedBy rho) then
    Act.update fun m => { m with mu := m.mu * prm.shrinkFactor, shrinks := m.shrinks + 1 }
  else
    recover
    if ← Act.ofExcept (prm.expandThreshold.exceededBy rho) then
      expand prm fun factor m => { m with mu := Scalar.smaller (factor * m.mu) 1e8 }

def updateFan (rho : α) (fu : Vec α n) : Act α (Memory α n) Bool := do
  scaleFan prm rho
  let accepted ← accepts prm rho
  if !accepted then Act.update fun m => { m with radius := fanRadius m.mu fu }
  pure accepted

end Rules

def name (scheme : Scheme) : String := "TrustRegion(" ++ scheme.title ++ ")"

variable (scheme : Scheme) (prm : Params α) (l : Linearization α) (o : Options α)

/-- The Jacobian at the iterate, built unless it is remembered. -/
def jacobian : Act α (Iteration α n (Memory α n)) (Mat α n n) := do
  let it ← Act.read
  match it.memory.jacobian with
  | some J => pure J
  | none => do
    let J ← Iteration.counting (Jacobian.dense it.problem l.differencing it.u it.fu)
    Act.update fun it => { it with memory := { it.memory with jacobian := some J } }
    pure J

/-- The Newton step, if the linear solve finds one with finite components. -/
def newtonStep (J : Mat α n n) : Act α (Iteration α n (Memory α n)) (Option (Vec α n)) := do
  let it ← Act.read
  match ← Act.attempt (Iteration.counting
      (l.solver.solve (.dense J) (-it.fu) it.u.toList it.problem.parameter)) with
  | .ok s => pure (if s.allFinite then some s else none)
  | .error e => if e.kind = .linearAlgebra then pure none else Act.raise e

def remembering {β : Type} (x : Act α (Memory α n) β) : Act α (Iteration α n (Memory α n)) β :=
  x.zoom Iteration.memory fun m it => { it with memory := m }

/-- Bastin's rule moves to an accepted trial first, because it needs the Jacobian there. -/
def updateBastin (rho : α) (s trial fuTrial : Vec α n) :
    Act α (Iteration α n (Memory α n)) Bool := do
  if ← Act.ofExcept (prm.stepThreshold.keptBy rho) then
    remembering (shrink prm)
    pure false
  else
    remembering recover
    let before ← Act.read
    Iteration.adopt trial fuTrial
    let it ← Act.read
    let J ← Iteration.counting (Jacobian.dense it.problem l.differencing it.u it.fu)
    remembering do
      Act.update fun m => { m with jacobian := some J }
      adjustBastin prm (retrospectiveRatio J before.fu fuTrial s) s.euclid
    pure true

def update (rho : α) (s trial fuTrial : Vec α n) : Act α (Iteration α n (Memory α n)) Bool :=
  match scheme with
  | .simple => remembering (updateSimple prm rho s.euclid)
  | .nlsolve => remembering (updateNlsolve prm rho s.euclid)
  | .bastin => updateBastin prm l rho s trial fuTrial
  | .fan => do
    let it ← Act.read
    remembering (updateFan prm rho it.fu)

def settle (fu : Vec α n) (m : Memory α n) : Memory α n :=
  match scheme with
  | .bastin => m
  | .fan => { m with jacobian := none, radius := fanRadius m.mu fu }
  | _ => { m with jacobian := none }

def exhausted (m : Memory α n) : Bool := prm.maxShrinkTimes.any (· < m.shrinks)

def attemptStep (J : Mat α n n) (s : Vec α n) : Act α (Iteration α n (Memory α n)) Unit := do
  let it ← Act.read
  let trial := it.u + s
  let fuTrial ← Iteration.evaluate trial
  let rho := reductionRatio J it.fu s fuTrial
  let accepted ← update scheme prm l rho s trial fuTrial
  if accepted then
    Iteration.adopt trial fuTrial
    remembering (Act.update (settle scheme fuTrial))
  let it ← Act.read
  if exhausted prm it.memory then
    Act.log (.shrankRepeatedly (name scheme) it.memory.shrinks)
    Iteration.terminate (name scheme) o.norm .shrinkThresholdExceeded

def advance : Act α (Iteration α n (Memory α n)) Unit := do
  let J ← jacobian l
  let newton ← newtonStep l J
  let it ← Act.read
  let s ← Act.ofExcept (doglegStep J it.fu it.memory.radius newton)
  if s.allFinite then attemptStep scheme prm l o J s
  else Iteration.terminate (name scheme) o.norm .failure

def method (n : Nat) : Method α n (Memory α n) :=
  ⟨name scheme, o, fresh scheme, advance scheme prm l o⟩

end Rootfinder.TrustRegion
