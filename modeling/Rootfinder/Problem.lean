import Rootfinder.Fault
import Rootfinder.Vec

namespace Rootfinder

inductive Parameter (α : Type) where
  | absent
  | scalar (a : α)
  | vector (as : List α)

/-- What a function stores, in order, and the fault that then stops it. -/
structure Writes (ι α : Type) where
  stores : List (ι × α)
  fault : Option (Fault α)

/-- Residual and Jacobian in one of the two calling conventions. -/
inductive System (α : Type) (n : Nat) where
  | outOfPlace (f : Vec α n → Parameter α → Except (Fault α) (Vec α n))
      (jacobian : Option (Vec α n → Parameter α → Except (Fault α) (Mat α n n)))
  | inPlace (f : Vec α n → Parameter α → Writes (Fin n) α)
      (jacobian : Option (Vec α n → Parameter α → Writes (Fin n × Fin n) α))

/-- An array after some writes, with the fault that stopped them. -/
structure Filled (α β : Type) where
  array : β
  fault : Option (Fault α)

namespace Writes

variable {α : Type} {n : Nat}

def fill (w : Writes (Fin n) α) (out : Vec α n) : Filled α (Vec α n) :=
  ⟨w.stores.foldl (fun v s => v.set s.1 s.2) out, w.fault⟩

def fillMat (w : Writes (Fin n × Fin n) α) (out : Mat α n n) : Filled α (Mat α n n) :=
  ⟨w.stores.foldl (fun A s => A.set s.1.1 (A[s.1.1].set s.1.2 s.2)) out, w.fault⟩

end Writes

/-- A returned value replaces the array as a whole, and only if there is one. -/
def Filled.ofExcept {α β : Type} (out : β) : Except (Fault α) β → Filled α β
  | .ok b => ⟨b, none⟩
  | .error e => ⟨out, some e⟩

def Filled.toExcept {α β : Type} (r : Filled α β) : Except (Fault α) β :=
  match r.fault with
  | none => .ok r.array
  | some e => .error e

namespace System

variable {α : Type} {n : Nat}

def isInPlace : System α n → Bool
  | .outOfPlace .. => false
  | .inPlace .. => true

def hasJacobian : System α n → Bool
  | .outOfPlace _ jacobian => jacobian.isSome
  | .inPlace _ jacobian => jacobian.isSome

end System

structure Problem (α : Type) (n : Nat) where
  system : System α n
  start : Vec α n
  parameter : Parameter α

namespace Problem

variable {α : Type} [Scalar α] {n : Nat}

/-- Evaluates the residual at `u` into `out`. -/
def residualInto (prob : Problem α n) (u out : Vec α n) : Filled α (Vec α n) :=
  match prob.system with
  | .outOfPlace f _ => .ofExcept out (f u prob.parameter)
  | .inPlace f _ => (f u prob.parameter).fill out

/-- Evaluates the residual at `u` into an array of zeros. If the array held anything else before,
only a function that leaves components unwritten could tell. -/
def residual (prob : Problem α n) (u : Vec α n) : Except (Fault α) (Vec α n) :=
  (prob.residualInto u (Vec.zero n)).toExcept

/-- Evaluates the analytic Jacobian at `u`; in place, it is stored into a matrix of zeros. -/
def jacobian (prob : Problem α n) (u : Vec α n) : Except (Fault α) (Mat α n n) :=
  match prob.system with
  | .outOfPlace _ (some jac) => jac u prob.parameter
  | .inPlace _ (some jac) => ((jac u prob.parameter).fillMat (Mat.zero n n)).toExcept
  | _ => .error (.refused .noJacobian)

def remake (prob : Problem α n) (start : Option (List α)) (parameter : Option (Parameter α)) :
    Except (Fault α) (Problem α n) :=
  let prob := { prob with parameter := parameter.getD prob.parameter }
  match start with
  | none => .ok prob
  | some xs =>
    match Vec.ofList? n xs with
    | some v => .ok { prob with start := v }
    | none => .error (.refused (.size n xs.length))

end Problem

def Vec.spread {α : Type} [Scalar α] (n : Nat) : List α → Except (Fault α) (Vec α n)
  | [x] => .ok (Vector.replicate n x)
  | xs =>
    match Vec.ofList? n xs with
    | some v => .ok v
    | none => .error .wrongShape

/-- A starting point as given: a scalar is a vector of one component. -/
def Value.startingPoint {α : Type} (v : Value) : Except (Fault α) (List Float) :=
  match v.array with
  | .error e => .error (.unreadable e)
  | .ok ([], xs) => .ok xs
  | .ok ([k], xs) => if k = 0 then .error (.refused (.start [k])) else .ok xs
  | .ok (shape, _) => .error (.refused (.start shape))

inductive Given (φ : Type) where
  | absent
  | function (f : φ)
  | other

/-- The parts of a problem, checked in their order: there must be a residual, there may be a
Jacobian, and the starting point is read last. -/
def Problem.parts {φ ψ : Type} (residual : Given φ) (jacobian : Given ψ) (start : Value) :
    Except (Fault Float) (φ × Option ψ × List Float) := do
  let f ← match residual with
    | .function f => .ok f
    | _ => .error (.refused .residual)
  let jac ← match jacobian with
    | .absent => .ok none
    | .function jac => .ok (some jac)
    | .other => .error (.refused .jacobian)
  .ok (f, jac, ← start.startingPoint)

end Rootfinder
