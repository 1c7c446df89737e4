import Rootfinder.Vec

namespace Rootfinder.LeastSquares

variable {α : Type} [Scalar α] {m n : Nat}

/-- A column of the matrix and the same column of the accumulated rotations. -/
structure Column (α : Type) (m n : Nat) where
  image : Vec α m
  direction : Vec α n

def angle (a b c : α) : α × α :=
  let zeta := (b - a) / (2.0 * c)
  let t := (if zeta < 0.0 then -1.0 else 1.0) /
    (Scalar.abs zeta + Scalar.sqrt (1.0 + zeta * zeta))
  let cos := 1.0 / Scalar.sqrt (1.0 + t * t)
  (cos * t, cos)

def turn {k : Nat} (s c : α) (u v : Vec α k) : Vec α k × Vec α k :=
  (Vec.scale c u - Vec.scale s v, Vec.scale s u + Vec.scale c v)

def orthogonalize (x y : Column α m n) : Column α m n × Column α m n :=
  let a := Vec.dot x.image x.image
  let b := Vec.dot y.image y.image
  let c := Vec.dot x.image y.image
  if Scalar.abs c ≤ Scalar.tiny || Scalar.abs c ≤ Scalar.epsilon * Scalar.sqrt (a * b) then (x, y)
  else
    let (sin, cos) := angle a b c
    let (u, v) := turn sin cos x.image y.image
    let (p, q) := turn sin cos x.direction y.direction
    (⟨u, p⟩, ⟨v, q⟩)

def against (x : Column α m n) : List (Column α m n) → Column α m n × List (Column α m n)
  | [] => (x, [])
  | y :: ys =>
    let (x, y) := orthogonalize x y
    let (x, ys) := against x ys
    (x, y :: ys)

/-- Rotates every pair of columns once; there are as many rounds as columns. -/
def sweep : Nat → List (Column α m n) → List (Column α m n)
  | 0, cols => cols
  | _ + 1, [] => []
  | k + 1, x :: xs =>
    let (x, xs) := against x xs
    x :: sweep k xs

/-- Enough sweeps for the columns to become orthogonal; convergence is quadratic in the end. -/
def sweeps : Nat := 40

def iterate : Nat → List (Column α m n) → List (Column α m n)
  | 0, cols => cols
  | k + 1, cols => iterate k (sweep n cols)

def largest {k : Nat} (v : Vec α k) (start : α) : α :=
  v.foldl (fun s x => Scalar.larger s (Scalar.abs x)) start

/-- Undoes the scaling of a solution of `A / size * x = b / height`; where the ratio of the two
overflows, the solution need not. -/
def unscale (height size x : α) : α :=
  if Scalar.isInf (height / size) then x * height / size else x * (height / size)

/-- The shortest vector among those with the least residual; singular values not above the
largest times the machine epsilon count as zero. -/
def solve (A : Mat α m n) (b : Vec α m) : Vec α n :=
  let size := A.foldl (fun s r => largest r s) 0.0
  let height := largest b 0.0
  if size == 0.0 || height == 0.0 then Vec.zero n
  else
    let columns := (List.finRange n).map fun j =>
      Column.mk (Vec.divide (A.column j) size) (Vec.unit j)
    let columns := iterate sweeps columns
    let values := columns.map fun c => c.image.euclid
    let top := values.foldl Scalar.larger 0.0
    let kept := (columns.zip values).filter fun (_, s) => Scalar.epsilon * top < s
    let b := Vec.divide b height
    let x := kept.foldl
      (fun x (c, s) => x + Vec.scale (Vec.dot (Vec.divide c.image s) b / s) c.direction)
      (Vec.zero n)
    x.map (unscale height size)

end Rootfinder.LeastSquares
