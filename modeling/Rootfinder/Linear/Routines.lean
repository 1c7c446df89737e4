import Rootfinder.Jacobian

namespace Rootfinder

/-- A computation that asks for products with a matrix and learns nothing else about it. -/
inductive Inquiry (α : Type) (n : Nat) (β : Type) where
  | done (b : β)
  | ask (v : Vec α n) (next : Vec α n → Inquiry α n β)

namespace Inquiry

variable {α β γ : Type} {n : Nat}

def bind : Inquiry α n β → (β → Inquiry α n γ) → Inquiry α n γ
  | .done b, f => f b
  | .ask v next, f => .ask v fun w => (next w).bind f

instance : Monad (Inquiry α n) where
  pure := done
  bind := bind

def product (v : Vec α n) : Inquiry α n (Vec α n) := ask v done

def run (product : Vec α n → Act α Stats (Vec α n)) : Inquiry α n β → Act α Stats β
  | .done b => pure b
  | .ask v next => do
    let w ← product v
    (next w).run product

end Inquiry

/-- A matrix with its triangular factor at hand; only square ones are solved with. -/
structure Factorization (α : Type) (m n : Nat) where
  pivots : List α
  solve : Vec α m → Vec α n

/-- The library of linear algebra that systems are handed to. Least squares may not converge, which
is told in words. An iterative solve takes a preconditioner, the right-hand side and a relative
tolerance; it sees the matrix through products only and tells in a number how it ended: zero where
the tolerance was met, below zero where it broke down. -/
class LinearRoutines (α : Type) where
  factorize : {m n : Nat} → Mat α m n → Factorization α m n
  leastSquares : {m n : Nat} → Mat α m n → Vec α m → Except String (Vec α n)
  krylov : {n : Nat} → Option (Mat α n n) → Vec α n → α → Inquiry α n (Vec α n × Int)

end Rootfinder
