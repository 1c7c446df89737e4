import Rootfinder.Linear.Routines

namespace Rootfinder.Krylov

variable {α : Type} [Scalar α] {n : Nat}

structure Rotation (α : Type) where
  c : α
  s : α

def copySign (x sign : α) : α := if sign < 0.0 then -Scalar.abs x else Scalar.abs x

/-- The rotation of a pair and the length it keeps; numbers far from one are scaled first. -/
def rotation (f g : α) : Rotation α × α :=
  let low : α := Scalar.sqrt Scalar.tiny
  let high : α := Scalar.sqrt (1.0 / Scalar.tiny / 2.0)
  let f1 := Scalar.abs f
  let g1 := Scalar.abs g
  if g == 0.0 then (⟨1.0, 0.0⟩, f)
  else if f == 0.0 then (⟨0.0, copySign 1.0 g⟩, g1)
  else if low < f1 && f1 < high && low < g1 && g1 < high then
    let d := Scalar.sqrt (f * f + g * g)
    let r := copySign d f
    (⟨f1 / d, g / r⟩, r)
  else
    let u := Scalar.smaller (1.0 / Scalar.tiny)
      (Scalar.larger (Scalar.larger Scalar.tiny f1) g1)
    let fs := f / u
    let gs := g / u
    let d := Scalar.sqrt (fs * fs + gs * gs)
    let r := copySign d f
    (⟨Scalar.abs fs / d, gs / r⟩, r * u)

def rotate : List (Rotation α) → List α → List α
  | q :: qs, x :: y :: rest => (q.c * x + q.s * y) :: rotate qs ((-q.s * x + q.c * y) :: rest)
  | _, xs => xs

/-- Removes the directions of a basis one after the other, keeping the coefficients. -/
def orthogonalize (w : Vec α n) : List (Vec α n) → Vec α n × List α
  | [] => (w, [])
  | v :: vs =>
    let t := Vec.dot v w
    let (w, ts) := orthogonalize (w - Vec.scale t v) vs
    (w, t :: ts)

/-- An orthonormal basis of the Krylov space, the triangular matrix by columns with the newest
first, the rotations, and the rotated right-hand side with its last entry apart. -/
structure Space (α : Type) (n : Nat) where
  basis : List (Vec α n)
  columns : List (List α)
  rotations : List (Rotation α)
  rhs : List α
  last : α

structure Round (α : Type) (n : Nat) where
  space : Space α n
  estimate : α
  breakdown : Bool

/-- One more column; the space breaks down if the product adds no new direction. -/
def extend (w : Vec α n) (sp : Space α n) : Round α n :=
  let before := w.euclid
  let (w, ts) := orthogonalize w sp.basis
  let after := w.euclid
  let breakdown : Bool := after ≤ Scalar.epsilon * before
  let next := if breakdown then w else Vec.scale (1.0 / after) w
  let column := rotate sp.rotations (ts ++ [if breakdown then 0.0 else after])
  let k := sp.rotations.length
  let (q, diagonal) := rotation (column.getD k 0.0) (column.getD (k + 1) 0.0)
  let residual := -q.s * sp.last
  ⟨{ basis := sp.basis ++ [next]
     columns := (column.take k ++ [diagonal]) :: sp.columns
     rotations := sp.rotations ++ [q]
     rhs := sp.rhs ++ [q.c * sp.last]
     last := residual },
   Scalar.abs residual, breakdown⟩

variable (precondition : Vec α n → Vec α n)

/-- Adds up to `count` columns, until the estimate meets the tolerance or the space breaks down. -/
def columns (tolerance : α) : Nat → Round α n → Inquiry α n (Round α n)
  | 0, r => pure r
  | k + 1, r => do
    let av ← Inquiry.product (r.space.basis.getLastD (Vec.zero n))
    let r := extend (precondition av) r.space
    if r.estimate ≤ tolerance || r.breakdown then pure r
    else columns tolerance k r

def substitute : List (List α) → List α → List α
  | [], _ => []
  | column :: rest, ys =>
    let k := rest.length
    let y := ys.getD k 0.0
    if y == 0.0 then substitute rest (ys.take k) ++ [y]
    else
      let y := y / column.getD k 0.0
      substitute rest (List.zipWith (fun a h => a - y * h) (ys.take k) (column.take k)) ++ [y]

/-- The coefficients of the correction; the last right-hand side is dropped if its pivot is zero. -/
def coefficients (sp : Space α n) : List α :=
  match sp.columns with
  | [] => []
  | column :: _ =>
    let k := sp.columns.length - 1
    let rhs := if column.getD k 0.0 == 0.0 then sp.rhs.set k 0.0 else sp.rhs
    substitute sp.columns rhs

def combine (cs : List α) (vs : List (Vec α n)) : Vec α n :=
  (cs.zip vs).foldl (fun x (c, v) => x + Vec.scale c v) (Vec.zero n)

structure Aim (α : Type) where
  tolerance : α
  factor : α

structure Answer (α : Type) (n : Nat) where
  solution : Vec α n
  residual : α

/-- Rounds of columns, each started from the true residual of the last. -/
def rounds (rhs : Vec α n) (restart : Nat) (goal : α) :
    Nat → Vec α n → Vec α n → Aim α → α → Inquiry α n (Answer α n)
  | 0, x, _, _, norm => pure ⟨x, norm⟩
  | k + 1, x, r, aim, _ => do
    let start := precondition r
    let size := start.euclid
    let space : Space α n := ⟨[Vec.scale (1.0 / size) start], [], [], [], size⟩
    let round ← columns precondition aim.tolerance restart ⟨space, 0.0, false⟩
    let x := x + combine (coefficients round.space) round.space.basis
    let ax ← Inquiry.product x
    let r := rhs - ax
    let norm := r.euclid
    if norm ≤ goal || round.breakdown then pure ⟨x, norm⟩
    else
      let factor :=
        if round.estimate ≤ aim.tolerance then Scalar.larger Scalar.epsilon (0.25 * aim.factor)
        else Scalar.smaller 1.0 (1.5 * aim.factor)
      let tolerance := round.estimate * Scalar.smaller factor (goal / norm)
      rounds rhs restart goal k x r ⟨tolerance, factor⟩ norm

def limit (n : Nat) : Nat := 10 * n

/-- Solves from zero to the relative tolerance `rtol`; the number of rounds tells that it was not
reached. -/
def solve (rhs : Vec α n) (rtol : α) : Inquiry α n (Vec α n × Int) := do
  let size := rhs.euclid
  let goal := Scalar.larger 0.0 (rtol * size)
  if size == 0.0 then pure (rhs, 0)
  else if size < goal then pure (Vec.zero n, 0)
  else do
    let tolerance := (precondition rhs).euclid * Scalar.smaller 1.0 (goal / size)
    let answer ← rounds precondition rhs (min 20 n) goal (limit n) (Vec.zero n) rhs
      ⟨tolerance, 1.0⟩ 0.0
    pure (answer.solution, if answer.residual ≤ goal then 0 else limit n)

end Rootfinder.Krylov
