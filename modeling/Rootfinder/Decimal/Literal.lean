import Rootfinder.Text.Blank
import Rootfinder.Text.Digit

namespace Rootfinder.Decimal

/-- A decimal `digits * 10 ^ exponent`; `whole` if it was written without point and exponent. -/
structure Literal where
  negative : Bool
  digits : Nat
  exponent : Int
  whole : Bool

private def ofDigits (ds : List Char) : Nat :=
  ds.foldl (fun n c => 10 * n + (c.toNat - '0'.toNat)) 0

def ungrouped : List Char → List Char
  | a :: '_' :: b :: rest =>
    if a.isDigit && b.isDigit then a :: ungrouped (b :: rest) else a :: '_' :: ungrouped (b :: rest)
  | c :: rest => c :: ungrouped rest
  | [] => []
termination_by cs => cs.length

private def signed (cs : List Char) : Bool × List Char :=
  match cs with
  | '-' :: rest => (true, rest)
  | '+' :: rest => (false, rest)
  | _ => (false, cs)

private def exponent? (cs : List Char) : Option (Int × Bool) :=
  match cs with
  | [] => some (0, false)
  | c :: rest =>
    if c = 'e' || c = 'E' then
      let (negative, ds) := signed rest
      if ds.isEmpty || !ds.all Char.isDigit then none
      else some (if negative then -(ofDigits ds : Int) else ofDigits ds, true)
    else none

def Literal.read? (cs : List Char) : Option Literal :=
  let (negative, rest) := signed cs
  let front := rest.takeWhile Char.isDigit
  let rest := rest.dropWhile Char.isDigit
  let (dotted, back, rest) := match rest with
    | '.' :: more => (true, more.takeWhile Char.isDigit, more.dropWhile Char.isDigit)
    | _ => (false, [], rest)
  if front.isEmpty && back.isEmpty then none
  else (exponent? rest).map fun (e, marked) =>
    ⟨negative, ofDigits (front ++ back), e - back.length, !dotted && !marked⟩

/-- The nearest double; magnitudes far outside the range are cut off before any power is taken. -/
def Literal.toFloat (l : Literal) : Float :=
  let size := (Nat.toDigits 10 l.digits).length
  let magnitude :=
    if l.digits = 0 || l.exponent + size < -400 then 0.0
    else if 400 < l.exponent + size then 1.0 / 0.0
    else Float.ofScientific l.digits (l.exponent < 0) l.exponent.natAbs
  if l.negative then -magnitude else magnitude

def Literal.toInt (l : Literal) : Int := if l.negative then -(l.digits : Int) else l.digits

/-- A character as it counts in a number: beyond ASCII there are only blanks and digits. -/
def plain? (c : Char) : Option Char :=
  if c.toNat < 127 then some c
  else if Text.isBlank c then some ' '
  else Text.digit? c

def isPadding (c : Char) : Bool := c.isWhitespace || c = '\x0b' || c = '\x0c'

def trimmed (cs : List Char) : List Char :=
  ((cs.dropWhile isPadding).reverse.dropWhile isPadding).reverse

def numeral? (s : String) : Option (List Char) := (s.toList.mapM plain?).map trimmed

def spelled? (cs : List Char) : Option Float :=
  match Literal.read? (ungrouped cs) with
  | some l => some l.toFloat
  | none =>
    let (negative, name) := signed cs
    match String.ofList (name.map Char.toLower) with
    | "inf" | "infinity" => some (if negative then -(1.0 / 0.0) else 1.0 / 0.0)
    | "nan" => some (0.0 / 0.0)
    | _ => none

def float? (s : String) : Option Float := (numeral? s).bind spelled?

def longest : Nat := 4300

def int? (s : String) : Option Int := do
  let cs ← numeral? s
  let l ← Literal.read? (ungrouped cs)
  if l.whole && cs.countP Char.isDigit ≤ longest then some l.toInt else none

end Rootfinder.Decimal
