import Rootfinder.Scalar

namespace Rootfinder

abbrev Vec (α : Type) (n : Nat) := Vector α n

/-- Stored by rows. -/
abbrev Mat (α : Type) (m n : Nat) := Vector (Vector α n) m

variable {α : Type} [Scalar α] {m n : Nat}

namespace Vec

def zero (n : Nat) : Vec α n := Vector.replicate n 0.0

def ones (n : Nat) : Vec α n := Vector.replicate n 1.0

def unit (j : Fin n) : Vec α n := Vector.ofFn fun i => if i = j then 1.0 else 0.0

def total (v : Vec α n) : α := v.foldl (· + ·) 0.0

def dot (u v : Vec α n) : α := total (Vector.zipWith (· * ·) u v)

def euclid (v : Vec α n) : α := Scalar.sqrt (dot v v)

def allFinite (v : Vec α n) : Bool := v.all Scalar.isFinite

def scale (c : α) (v : Vec α n) : Vec α n := v.map (c * ·)

def divide (v : Vec α n) (c : α) : Vec α n := v.map (· / c)

/-- The greatest component; a component that is not a number wins. -/
def greatest (v : Vec α n) : α :=
  v.foldl (fun m x => if Scalar.isNaN m then m else if Scalar.isNaN x then x
    else Scalar.larger m x) (-Scalar.infinity)

/-- The least component; a component that is not a number wins. -/
def least (v : Vec α n) : α :=
  v.foldl (fun m x => if Scalar.isNaN m then m else if Scalar.isNaN x then x
    else Scalar.smaller m x) Scalar.infinity

def ofList? (n : Nat) (xs : List α) : Option (Vec α n) :=
  if h : xs.toArray.size = n then some ⟨xs.toArray, h⟩ else none

def counted (xs : List α) : Vec α xs.toArray.size := ⟨xs.toArray, rfl⟩

end Vec

namespace Mat

def zero (m n : Nat) : Mat α m n := Vector.replicate m (Vec.zero n)

def identity (n : Nat) : Mat α n n := Vector.ofFn Vec.unit

def diagonal (d : Vec α n) : Mat α n n :=
  Vector.ofFn fun i => Vector.ofFn fun j => if i = j then d[i] else 0.0

def mulVec (A : Mat α m n) (v : Vec α n) : Vec α m := A.map (Vec.dot · v)

def column (A : Mat α m n) (j : Fin n) : Vec α m := A.map (·[j])

def transpose (A : Mat α m n) : Mat α n m := Vector.ofFn A.column

def vecMul (v : Vec α m) (A : Mat α m n) : Vec α n := A.transpose.mulVec v

def setColumn (A : Mat α m n) (j : Fin n) (column : Vec α m) : Mat α m n :=
  Vector.ofFn fun i => A[i].set j column[i]

def allFinite (A : Mat α m n) : Bool := A.all Vec.allFinite

def ofRows? (m n : Nat) (rows : List (List α)) : Option (Mat α m n) := do
  let vs ← rows.mapM (Vec.ofList? n)
  if h : vs.toArray.size = m then some ⟨vs.toArray, h⟩ else none

end Mat

end Rootfinder
