import Rootfinder.Decimal.Scientific

namespace Rootfinder.Decimal

/-- Whether `c * 10 ^ grid` reads back as the magnitude `d`. -/
def Dyadic.reads (d : Dyadic) (grid : Int) (c : Nat) : Bool :=
  let below := if d.mantissa = Nat.pow 2 52 ∧ -1074 < d.exponent then 1 else 2
  let a := c * Nat.pow 10 grid.toNat * Nat.pow 2 (2 - d.exponent).toNat
  let b := Nat.pow 10 (-grid).toNat * Nat.pow 2 (d.exponent - 2).toNat
  let lo := (4 * d.mantissa - below) * b
  let hi := (4 * d.mantissa + 2) * b
  if d.mantissa % 2 = 0 then lo ≤ a && a ≤ hi else lo < a && a < hi

/-- The decimal on the grid of `count` digits that reads back, the nearer of two. -/
def Dyadic.onGrid? (d : Dyadic) (k : Int) (count : Nat) : Option Nat :=
  let grid := k + 1 - count
  let (num, den) := d.ratio (-grid)
  let c := num / den
  match d.reads grid c, d.reads grid (c + 1) with
  | true, true => some (roundDiv num den)
  | true, false => some c
  | false, true => some (c + 1)
  | false, false => none

/-- The fewest digits that read back and the exponent of the leading one; seventeen always do. -/
def Dyadic.shortest (d : Dyadic) : Nat × Int :=
  let k := d.leading
  match (List.range 17).findSome? fun i => (d.onGrid? k (i + 1)).map (i + 1, ·) with
  | some (count, c) => if c = Nat.pow 10 count then (1, k + 1) else (c, k)
  | none => d.rounded 17

structure Layout where
  first : Int
  past : Int

def Layout.plain : Layout := ⟨-4, 16⟩

def positional (ds : List Char) (k : Int) : String :=
  if k < 0 then
    "0." ++ String.ofList (List.replicate ((-k).toNat - 1) '0' ++ ds)
  else
    let whole := k.toNat + 1
    let front := ds.take whole ++ List.replicate (whole - ds.length) '0'
    let back := ds.drop whole
    String.ofList front ++ "." ++ (if back.isEmpty then "0" else String.ofList back)

/-- The shortest text that reads back as `x`. -/
def shortest (layout : Layout) (x : Float) : String :=
  match Dyadic.ofFloat? x with
  | none => if x.isNaN then "nan" else if x < 0.0 then "-inf" else "inf"
  | some d =>
    let (c, k) := if d.mantissa = 0 then (0, 0) else d.shortest
    let ds := Nat.toDigits 10 c
    (if d.negative then "-" else "") ++
      (if layout.first ≤ k ∧ k < layout.past then positional ds k
       else pointed ds ++ exponentText k)

end Rootfinder.Decimal
