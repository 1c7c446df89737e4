import Rootfinder.Linear.Routines

namespace Rootfinder.Elimination

variable {α : Type} [Scalar α]

structure Row (α : Type) where
  coefficients : List α
  rhs : α

namespace Row

def head (r : Row α) : α := r.coefficients.headD 0.0

def reduce (pivot r : Row α) : Row α :=
  let factor := r.head / pivot.head
  ⟨List.zipWith (fun p x => x - factor * p) pivot.coefficients.tail r.coefficients.tail,
   r.rhs - factor * pivot.rhs⟩

def back (r : Row α) (xs : List α) : α :=
  (List.zipWith (· * ·) r.coefficients.tail xs).foldl (· - ·) r.rhs / r.head

end Row

/-- The first row with the largest leading magnitude, and the others; the first row takes the
place of the chosen one. -/
def pivot (r : Row α) (rows : List (Row α)) : Row α × List (Row α) :=
  let size (r : Row α) := Scalar.abs r.head
  let best := rows.foldl (fun b x => if size b < size x then x else b) r
  match rows.findIdx? fun x => size r < size x && size x == size best with
  | some i => (best, rows.set i r)
  | none => (r, rows)

/-- The pivot rows of Gaussian elimination with partial pivoting. After a pivot that is exactly zero
there are no more. -/
def eliminate : Nat → List (Row α) → List (Row α)
  | 0, _ => []
  | _ + 1, [] => []
  | k + 1, r :: rows =>
    let (p, rest) := pivot r rows
    if p.head == 0.0 then [p] else p :: eliminate k (rest.map p.reduce)

def substitute (pivots : List (Row α)) : List α := pivots.foldr (fun p xs => p.back xs :: xs) []

def rows {m n : Nat} (A : Mat α m n) (b : Vec α m) : List (Row α) :=
  List.zipWith (fun a y => Row.mk a.toList y) A.toList b.toList

def factorize {m n : Nat} (A : Mat α m n) : Factorization α m n where
  pivots := (eliminate (min m n) (rows A (Vec.zero m))).map Row.head
  solve b :=
    let xs := substitute (eliminate (min m n) (rows A b))
    Vector.ofFn fun i => xs.getD i 0.0

end Rootfinder.Elimination
