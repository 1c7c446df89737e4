import Rootfinder.Fault
import Rootfinder.Scalar

namespace Rootfinder.Selection

variable {α β : Type} [Scalar α]

/-- The order of norms; what is not a number comes last. -/
def precedes (x y : α) : Bool := !Scalar.isNaN x && (Scalar.isNaN y || x < y)

def scan (measure : β → α) (best : Nat × β) : Nat → List β → Nat × β
  | _, [] => best
  | i, b :: bs =>
    if precedes (measure b) (measure best.2) then scan measure (i, b) (i + 1) bs
    else scan measure best (i + 1) bs

/-- The first entry with the least measure, and its place. -/
def selectBest (measure : β → α) : List β → Except (Fault α) (Nat × β)
  | [] => .error (.refused .nothingToSelect)
  | b :: bs => .ok (scan measure (0, b) 1 bs)

end Rootfinder.Selection
