import Mathlib
import Rootfinder.Vec

namespace Rootfinder

/-- A real number, an infinity, or a value that is not a number. The operations follow the rules for
doubles, but without rounding, and zero has no sign. -/
inductive Exact where
  | real (x : ℝ)
  | infinite (negative : Bool)
  | undefined

namespace Exact

protected def neg : Exact → Exact
  | real x => real (-x)
  | infinite s => infinite !s
  | undefined => undefined

protected noncomputable def add : Exact → Exact → Exact
  | real x, real y => real (x + y)
  | infinite s, infinite t => if s = t then infinite s else undefined
  | infinite s, real _ | real _, infinite s => infinite s
  | _, _ => undefined

protected noncomputable def mul : Exact → Exact → Exact
  | real x, real y => real (x * y)
  | infinite s, infinite t => infinite (s ^^ t)
  | infinite s, real x | real x, infinite s =>
    if x = 0 then undefined else infinite (s ^^ decide (x < 0))
  | _, _ => undefined

protected noncomputable def div : Exact → Exact → Exact
  | real x, real y =>
    if y ≠ 0 then real (x / y) else if x = 0 then undefined else infinite (decide (x < 0))
  | real _, infinite _ => real 0
  | infinite s, real y => infinite (s ^^ decide (y < 0))
  | _, _ => undefined

protected def lt : Exact → Exact → Prop
  | real x, real y => x < y
  | infinite s, infinite t => s = true ∧ t = false
  | infinite s, real _ => s = true
  | real _, infinite t => t = false
  | _, _ => False

protected def le : Exact → Exact → Prop
  | real x, real y => x ≤ y
  | infinite s, infinite t => s = true ∨ t = false
  | infinite s, real _ => s = true
  | real _, infinite t => t = false
  | _, _ => False

protected noncomputable def beq : Exact → Exact → Bool
  | real x, real y => decide (x = y)
  | infinite s, infinite t => s == t
  | _, _ => false

protected noncomputable def abs : Exact → Exact
  | real x => real |x|
  | infinite _ => infinite false
  | undefined => undefined

protected noncomputable def sqrt : Exact → Exact
  | real x => if x < 0 then undefined else real √x
  | infinite s => if s then undefined else infinite false
  | undefined => undefined

/-- Powers with real exponents, of which numbers below zero have none here. -/
protected noncomputable def pow : Exact → Exact → Exact
  | real x, real y =>
    if x < 0 then undefined else if x = 0 ∧ y < 0 then infinite false else real (x ^ y)
  | infinite s, real y =>
    if s then undefined else if y = 0 then real 1 else if y < 0 then real 0 else infinite false
  | _, _ => undefined

noncomputable instance : Scalar Exact where
  add := Exact.add
  sub a b := Exact.add a (Exact.neg b)
  mul := Exact.mul
  div := Exact.div
  neg := Exact.neg
  ofScientific m s e := real (OfScientific.ofScientific m s e)
  lt := Exact.lt
  le := Exact.le
  beq := Exact.beq
  decLt _ _ := Classical.propDecidable _
  decLe _ _ := Classical.propDecidable _
  abs := Exact.abs
  sqrt := Exact.sqrt
  pow := Exact.pow
  isNaN
    | undefined => true
    | _ => false
  isInf
    | infinite _ => true
    | _ => false
  infinity := infinite false

section Numbers

variable (x y : ℝ)

theorem ofScientific_eq (m : ℕ) (s : Bool) (e : ℕ) :
    (OfScientific.ofScientific m s e : Exact) = real (OfScientific.ofScientific m s e) := rfl

@[simp]
theorem zero_eq : (0.0 : Exact) = real 0 := by rw [ofScientific_eq]; norm_num

@[simp]
theorem half_eq : (0.5 : Exact) = real (1 / 2) := by rw [ofScientific_eq]; norm_num

@[simp]
theorem one_eq : (1.0 : Exact) = real 1 := by rw [ofScientific_eq]; norm_num

@[simp]
theorem two_eq : (2.0 : Exact) = real 2 := by rw [ofScientific_eq]; norm_num

@[simp]
theorem four_eq : (4.0 : Exact) = real 4 := by rw [ofScientific_eq]; norm_num

@[simp]
theorem neg_real : -real x = real (-x) := rfl

@[simp]
theorem add_real : real x + real y = real (x + y) := rfl

@[simp]
theorem sub_real : real x - real y = real (x - y) := congrArg real (sub_eq_add_neg x y).symm

@[simp]
theorem mul_real : real x * real y = real (x * y) := rfl

theorem div_real {y : ℝ} (h : y ≠ 0) : real x / real y = real (x / y) := if_pos h

theorem sqrt_real {x : ℝ} (h : 0 ≤ x) : Scalar.sqrt (real x) = real √x := if_neg (not_lt.mpr h)

/-- Numbers that are not negative have powers. -/
theorem pow_real {x y : ℝ} (hx : 0 ≤ x) (hy : 0 ≤ y) :
    Scalar.pow (real x) (real y) = real (x ^ y) := by
  change Exact.pow _ _ = _
  rw [Exact.pow, if_neg hx.not_gt, if_neg fun h => h.2.not_ge hy]

theorem pow_two_real {x : ℝ} (h : 0 ≤ x) : Scalar.pow (real x) (real 2) = real (x ^ 2) := by
  rw [pow_real h zero_le_two, Real.rpow_two]

@[simp]
theorem lt_real : real x < real y ↔ x < y := Iff.rfl

@[simp]
theorem le_real : real x ≤ real y ↔ x ≤ y := Iff.rfl

@[simp]
theorem beq_real : (real x == real y) = decide (x = y) := rfl

@[simp]
theorem larger_real : Scalar.larger (real x) (real y) = real (max x y) := by
  rw [Scalar.larger, max_def_lt, apply_ite real]
  rfl

@[simp]
theorem smaller_real : Scalar.smaller (real x) (real y) = real (min x y) := by
  rw [Scalar.smaller, min_comm, min_def_lt, apply_ite real]
  rfl

@[simp]
theorem isFinite_iff {a : Exact} : Scalar.isFinite a = true ↔ ∃ x, a = real x := by
  cases a <;> simp [Scalar.isFinite, Scalar.isNaN, Scalar.isInf]

end Numbers

section Vectors

variable {n : ℕ}

/-- A vector of Euclidean space, as the kernels take it. -/
def vec (v : EuclideanSpace ℝ (Fin n)) : Vec Exact n := Vector.ofFn fun i => real (v i)

/-- A real matrix, by its rows. -/
def mat (A : Matrix (Fin n) (Fin n) ℝ) : Mat Exact n n :=
  Vector.ofFn fun i => Vector.ofFn fun j => real (A i j)

variable (u v : EuclideanSpace ℝ (Fin n)) (c : ℝ)

@[simp]
theorem getElem_vec (i : ℕ) (h : i < n) : (vec v)[i] = real (v ⟨i, h⟩) := Vector.getElem_ofFn h

@[simp]
theorem add_vec : vec u + vec v = vec (u + v) := by ext i h; simp

@[simp]
theorem sub_vec : vec u - vec v = vec (u - v) := by ext i h; simp

@[simp]
theorem neg_vec : -vec v = vec (-v) := by ext i h; simp

@[simp]
theorem scale_vec : Vec.scale (real c) (vec v) = vec (c • v) := by ext i h; simp [Vec.scale]

@[simp]
theorem map_mul_vec : (vec v).map (· * real c) = vec (c • v) := by ext i h; simp [mul_comm]

@[simp]
theorem zero_vec : Vec.zero n = vec (0 : EuclideanSpace ℝ (Fin n)) := by ext i h; simp [Vec.zero]

/-- The vectors with finite components are those of Euclidean space. -/
theorem allFinite_iff {s : Vec Exact n} : s.allFinite = true ↔ ∃ v, s = vec v := by
  rw [Vec.allFinite, Vector.all_eq_true]
  constructor
  · intro h
    choose f hf using fun i : Fin n => isFinite_iff.mp (h i i.isLt)
    exact ⟨WithLp.toLp 2 f, Vector.ext fun i hi => (hf ⟨i, hi⟩).trans (getElem_vec _ i hi).symm⟩
  · rintro ⟨v, rfl⟩ i hi
    exact isFinite_iff.mpr ⟨_, getElem_vec v i hi⟩

theorem foldl_add_real (xs : List ℝ) (c : ℝ) :
    (xs.map real).foldl (· + ·) (real c) = real (c + xs.sum) := by
  induction xs generalizing c with
  | nil => simp
  | cons x xs ih => rw [List.map_cons, List.foldl_cons, add_real, ih, List.sum_cons, add_assoc]

theorem toList_vec : (vec v).toList = (List.ofFn v).map real := by
  rw [vec, Vector.toList_ofFn, List.map_ofFn]
  rfl

theorem total_vec : Vec.total (vec v) = real (∑ i, v i) := by
  rw [Vec.total, zero_eq, ← Vector.foldl_toList, toList_vec, foldl_add_real, zero_add,
    List.sum_ofFn]

theorem zipWith_mul_vec :
    Vector.zipWith (· * ·) (vec u) (vec v) = vec (WithLp.toLp 2 fun i => u i * v i) := by
  ext i h
  simp

@[simp]
theorem dot_vec : Vec.dot (vec u) (vec v) = real (inner ℝ u v) := by
  rw [Vec.dot, zipWith_mul_vec, total_vec, PiLp.inner_apply]
  simp [mul_comm]

@[simp]
theorem euclid_vec : (vec v).euclid = real ‖v‖ := by
  rw [Vec.euclid, dot_vec, sqrt_real real_inner_self_nonneg, norm_eq_sqrt_real_inner]

variable (A : Matrix (Fin n) (Fin n) ℝ)

@[simp]
theorem mulVec_mat : (mat A).mulVec (vec v) = vec (A.toEuclideanLin v) := by
  ext i h
  have hrow : (mat A)[i] = vec (WithLp.toLp 2 (A ⟨i, h⟩)) := Vector.getElem_ofFn h
  rw [Mat.mulVec, Vector.getElem_map, hrow, dot_vec, getElem_vec]
  simp [Matrix.mulVec, PiLp.inner_apply, dotProduct, mul_comm]

@[simp]
theorem transpose_mat : (mat A).transpose = mat A.transpose := by
  ext i hi j hj
  simp [Mat.transpose, Mat.column, mat]

/-- A matrix goes to the other side of an inner product as its transpose. -/
theorem inner_transpose :
    inner ℝ (A.transpose.toEuclideanLin u) v = inner ℝ u (A.toEuclideanLin v) := by
  rw [← Matrix.conjTranspose_eq_transpose_of_trivial,
    Matrix.toEuclideanLin_conjTranspose_eq_adjoint, LinearMap.adjoint_inner_left]

end Vectors

end Exact

end Rootfinder
