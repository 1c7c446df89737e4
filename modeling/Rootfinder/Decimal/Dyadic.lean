namespace Rootfinder.Decimal

/-- The number `mantissa * 2 ^ exponent`, with a sign that zero has too. -/
structure Dyadic where
  negative : Bool
  mantissa : Nat
  exponent : Int

def Dyadic.ofFloat? (x : Float) : Option Dyadic :=
  let bits := x.toBits.toNat
  let negative := bits / Nat.pow 2 63 == 1
  let e : Nat := bits / Nat.pow 2 52 % Nat.pow 2 11
  let f : Nat := bits % Nat.pow 2 52
  if e = 2047 then none
  else if e = 0 then some ⟨negative, f, -1074⟩
  else some ⟨negative, Nat.pow 2 52 + f, (e : Int) - 1075⟩

/-- Numerator and denominator of the magnitude times `10 ^ shift`. -/
def Dyadic.ratio (d : Dyadic) (shift : Int) : Nat × Nat :=
  (d.mantissa * Nat.pow 2 d.exponent.toNat * Nat.pow 10 shift.toNat,
   Nat.pow 2 (-d.exponent).toNat * Nat.pow 10 (-shift).toNat)

/-- The nearest integer to a quotient; a tie goes to the even neighbour. -/
def roundDiv (num den : Nat) : Nat :=
  let q := num / den
  let r := num % den
  if den < 2 * r || (2 * r == den && q % 2 == 1) then q + 1 else q

def width (n : Nat) : Nat := (Nat.toDigits 10 n).length

def Dyadic.leading (d : Dyadic) : Int :=
  let (num, den) := d.ratio 0
  let k : Int := (width num : Int) - width den
  let (num', den') := d.ratio (-k)
  if den' ≤ num' then k else k - 1

end Rootfinder.Decimal
