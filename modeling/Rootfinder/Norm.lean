import Rootfinder.Vec

namespace Rootfinder

variable {α : Type} [Scalar α]

/-- The largest magnitude of a list, or the first component that is not a number. -/
def magnitude (r : List α) : α := go 0.0 r
where
  go (m : α) : List α → α
    | [] => m
    | x :: xs =>
      let a := Scalar.abs x
      if Scalar.isNaN a then a else go (if m < a then a else m) xs

/-- The sum of squares is taken of components divided by the largest, so that it cannot overflow. -/
def lengthScaled (r : List α) : α :=
  let s := magnitude r
  if Scalar.isNaN s || s == 0.0 || Scalar.isInf s then s
  else s * Scalar.sqrt (r.foldl (fun acc x => acc + (x / s) * (x / s)) 0.0)

def rootMeanSquare (r : List α) : α :=
  if r.isEmpty then 0.0 else lengthScaled r / Scalar.sqrt (Scalar.ofNat r.length)

/-- A residual norm under the name by which it is offered; any function may serve. -/
structure Norm (α : Type) where
  name : String
  eval : List α → α

namespace Norm

def l2 : Norm α := ⟨"l2", lengthScaled⟩

def inf : Norm α := ⟨"inf", magnitude⟩

def rms : Norm α := ⟨"rms", rootMeanSquare⟩

/-- The signed first component; not a norm, since it may be negative. -/
def first : Norm α := ⟨"first", fun r => r.headD 0.0⟩

def named? (name : String) : Option (Norm α) :=
  [l2, inf, rms, first].find? (·.name == name)

/-- The norm of a vector. -/
def of {n : Nat} (norm : Norm α) (v : Vec α n) : α := norm.eval v.toList

end Norm

end Rootfinder
