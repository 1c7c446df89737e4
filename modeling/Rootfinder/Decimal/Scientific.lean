import Rootfinder.Decimal.Dyadic

namespace Rootfinder.Decimal

def exponentText (k : Int) : String :=
  let digits := toString k.natAbs
  (if k < 0 then "e-" else "e+") ++ (if digits.length < 2 then "0" ++ digits else digits)

def pointed (digits : List Char) : String :=
  match digits with
  | [] => ""
  | [c] => String.singleton c
  | c :: rest => String.ofList (c :: '.' :: rest)

def padded (count n : Nat) : List Char :=
  let ds := Nat.toDigits 10 n
  List.replicate (count - ds.length) '0' ++ ds

/-- The first `count` digits of a magnitude, correctly rounded, and the exponent of the leading
one. -/
def Dyadic.rounded (d : Dyadic) (count : Nat) : Nat × Int :=
  if d.mantissa = 0 then (0, 0)
  else
    let k := d.leading
    let (num, den) := d.ratio ((count : Int) - 1 - k)
    let c := roundDiv num den
    if c = Nat.pow 10 count then (Nat.pow 10 (count - 1), k + 1) else (c, k)

/-- Scientific notation with `count` significant digits; ties of the exact value go to even. -/
def scientific (count : Nat) (x : Float) : String :=
  match Dyadic.ofFloat? x with
  | none => if x.isNaN then "nan" else if x < 0.0 then "-inf" else "inf"
  | some d =>
    let (c, k) := d.rounded count
    (if d.negative then "-" else "") ++ pointed (padded count c) ++ exponentText k

end Rootfinder.Decimal
