namespace Rootfinder

/-- Arithmetic with infinities and a value that is not a number, on which comparisons are false. -/
class Scalar (α : Type) extends Add α, Sub α, Mul α, Div α, Neg α, OfScientific α, LT α, LE α,
    BEq α where
  decLt : ∀ a b : α, Decidable (a < b)
  decLe : ∀ a b : α, Decidable (a ≤ b)
  abs : α → α
  sqrt : α → α
  pow : α → α → α
  isNaN : α → Bool
  isInf : α → Bool
  infinity : α

namespace Scalar

variable {α : Type} [Scalar α]

instance : DecidableLT α := Scalar.decLt
instance : DecidableLE α := Scalar.decLe

def isFinite (x : α) : Bool := !isNaN x && !isInf x

def ofNat (n : Nat) : α := OfScientific.ofScientific n false 0

/-- The second argument only where it is above the first. -/
def larger (a b : α) : α := if a < b then b else a

/-- The second argument only where it is below the first. -/
def smaller (a b : α) : α := if b < a then b else a

/-- The gap between one and the next double. -/
def epsilon : α := 1.0 / ofNat (Nat.pow 2 52)

/-- The least normal double. -/
def tiny : α := 1.0 / ofNat (Nat.pow 2 1022)

end Scalar

instance : Scalar Float where
  decLt := fun _ _ => inferInstance
  decLe := fun _ _ => inferInstance
  abs := Float.abs
  sqrt := Float.sqrt
  pow := Float.pow
  isNaN := Float.isNaN
  isInf := Float.isInf
  infinity := 1.0 / 0.0

end Rootfinder
