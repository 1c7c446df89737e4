import Rootfinder.Decimal.Shortest
import Rootfinder.Decimal.Literal
import Rootfinder.Text.Printable

namespace Rootfinder

inductive Value where
  | none
  | bool (b : Bool)
  | int (i : Int)
  | num (x : Float)
  | text (s : String)
  | list (vs : List Value)
  | record (fields : List (String × Value))
deriving Inhabited

/-- Why a value could not be read as numbers. -/
inductive Misreading where
  | ragged
  | tooDeep
  | notANumber
  | infinite
  | wrongType

namespace Value

def coded (n : Nat) : String :=
  let padded (count : Nat) :=
    let ds := Nat.toDigits 16 n
    String.ofList (List.replicate (count - ds.length) '0' ++ ds)
  if n < 0x100 then "\\x" ++ padded 2
  else if n < 0x10000 then "\\u" ++ padded 4
  else "\\U" ++ padded 8

def escaped (quote c : Char) : String :=
  if c = '\\' || c = quote then String.ofList ['\\', c]
  else if c = '\n' then "\\n"
  else if c = '\r' then "\\r"
  else if c = '\t' then "\\t"
  else if Text.isPrintable c then String.singleton c
  else coded c.toNat

def quoted (s : String) : String :=
  let quote := if s.toList.contains '\'' && !s.toList.contains '"' then '"' else '\''
  String.singleton quote ++ String.join (s.toList.map (escaped quote)) ++ String.singleton quote

mutual

def written : Value → String
  | .none => "None"
  | .bool b => if b then "True" else "False"
  | .int i => toString i
  | .num x => Decimal.shortest .plain x
  | .text s => quoted s
  | .list vs => "[" ++ ", ".intercalate (writtenAll vs) ++ "]"
  | .record fs => "\x7b" ++ ", ".intercalate (writtenFields fs) ++ "\x7d"

def writtenAll : List Value → List String
  | [] => []
  | v :: vs => written v :: writtenAll vs

def writtenFields : List (String × Value) → List String
  | [] => []
  | (k, v) :: fs => (quoted k ++ ": " ++ written v) :: writtenFields fs

end

def shown : Value → String
  | .text s => s
  | v => v.written

def whole? : Value → Option Int
  | .bool b => some (if b then 1 else 0)
  | .int i => some i
  | _ => Option.none

/-- The value of a number, if it is one. -/
def number? : Value → Option Float
  | .num x => some x
  | v => v.whole?.map Float.ofInt

/-- Whether a whole number and a double have the same exact value. -/
def wholeIs (i : Int) (x : Float) : Bool :=
  match Decimal.Dyadic.ofFloat? x with
  | Option.none => false
  | some d =>
    let m : Int := if d.negative then -(d.mantissa : Int) else d.mantissa
    i * (Nat.pow 2 (-d.exponent).toNat : Nat) == m * (Nat.pow 2 d.exponent.toNat : Nat)

mutual

def same : Value → Value → Bool
  | .none, .none => true
  | .num x, .num y => x == y
  | .text s, .text t => s == t
  | .list vs, .list ws => sameAll vs ws
  | .record fs, .record gs => fs.length == gs.length && fieldsAmong fs gs
  | v, w =>
    match v.whole?, w.whole? with
    | some i, some j => i == j
    | some i, Option.none => match w with | .num y => wholeIs i y | _ => false
    | Option.none, some j => match v with | .num x => wholeIs j x | _ => false
    | Option.none, Option.none => false

def sameAll : List Value → List Value → Bool
  | [], [] => true
  | v :: vs, w :: ws => same v w && sameAll vs ws
  | _, _ => false

def fieldsAmong : List (String × Value) → List (String × Value) → Bool
  | [], _ => true
  | (k, v) :: fs, gs =>
    (match gs.lookup k with
      | some w => same v w
      | Option.none => false) && fieldsAmong fs gs

end

/-- The whole number that remains when the fraction is cut off. -/
def truncated : Value → Except Misreading Int
  | .num x =>
    match Decimal.Dyadic.ofFloat? x with
    | Option.none => .error (if x.isNaN then .notANumber else .infinite)
    | some d =>
      let m : Int := (d.mantissa * Nat.pow 2 d.exponent.toNat / Nat.pow 2 (-d.exponent).toNat : Nat)
      .ok (if d.negative then -m else m)
  | .text s => match Decimal.int? s with
    | some i => .ok i
    | Option.none => .error .notANumber
  | v => match v.whole? with
    | some i => .ok i
    | Option.none => .error .wrongType

/-- The double that a number stands for; whole numbers beyond all doubles have none. -/
def double : Value → Except Misreading Float
  | .num x => .ok x
  | v => match v.whole? with
    | some i => if (Float.ofInt i).isInf then .error .infinite else .ok (Float.ofInt i)
    | Option.none => .error .wrongType

/-- One component of an array: an absent value is not a number, and a text is read. -/
def component : Value → Except Misreading Float
  | .none => .ok (0.0 / 0.0)
  | .text s => match Decimal.float? s with
    | some x => .ok x
    | Option.none => .error .notANumber
  | v => v.double

mutual

def shape : Value → Except Misreading (List Nat)
  | .list vs => do .ok (vs.length :: (← commonShape vs).getD [])
  | _ => .ok []

def commonShape : List Value → Except Misreading (Option (List Nat))
  | [] => .ok Option.none
  | v :: vs => do
    let first ← shape v
    let rest ← commonShape vs
    if rest.all (· == first) then .ok (some first) else .error .ragged

end

mutual

def leaves : Value → List Value
  | .list vs => allLeaves vs
  | v => [v]

def allLeaves : List Value → List Value
  | [] => []
  | v :: vs => leaves v ++ allLeaves vs

end

def maxRank : Nat := 64

/-- The shape of nested lists and their components in order. The shape is found before any
component is read, and the first that cannot be read decides. -/
def array (v : Value) : Except Misreading (List Nat × List Float) := do
  let shape ← v.shape
  if maxRank < shape.length then .error .tooDeep
  else .ok (shape, ← v.leaves.mapM component)

def isKey : Value → Bool
  | .list _ | .record _ => false
  | _ => true

def field? (name : String) : Value → Option Value
  | .record fs => fs.lookup name
  | _ => Option.none

end Value

end Rootfinder
