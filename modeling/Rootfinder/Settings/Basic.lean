import Rootfinder.Linear.Solver

namespace Rootfinder

inductive Stencil where
  | forward
  | central
deriving DecidableEq

namespace Stencil

def name : Stencil → String
  | .forward => "forward"
  | .central => "central"

def named? (s : String) : Option Stencil := [forward, central].find? (·.name == s)

end Stencil

/-- How derivatives are approximated; the relative step may be left open. -/
structure Differentiation where
  stencil : Stencil
  step : Value

/-- A preconditioner with the key that tells it from others. -/
structure Preconditioning where
  key : Nat
  run : Preconditioner Float

/-- What a field can hold. -/
inductive Setting where
  | plain (v : Value)
  | differentiation (d : Differentiation)
  | preconditioning (p : Preconditioning)

abbrev Keywords := List (String × Setting)

namespace Setting

def absent : Setting := .plain .none

def isAbsent : Setting → Bool
  | .plain .none => true
  | _ => false

def value? : Setting → Option Value
  | .plain v => some v
  | _ => none

end Setting

class Settings (σ : Type) where
  title : String
  initial : σ
  fields : σ → Keywords
  /-- The record with the given fields, unless one is refused. -/
  ofFields : (String → Setting) → Except (Fault Float) σ

namespace Settings

variable {σ : Type} [Settings σ]

def names (σ : Type) [Settings σ] : List String := (fields (initial : σ)).map (·.1)

/-- The name that no keyword of a change may have, as it stands for the record that is changed. -/
def receiver : String := "self"

def overlay (c : σ) (given : Keywords) (name : String) : Setting :=
  ((given.lookup name).orElse fun _ => (fields c).lookup name).getD .absent

/-- Settings from keywords, all of which must be known. -/
def make (given : Keywords) : Except (Fault Float) σ :=
  match given.find? fun kv => !(names σ).contains kv.1 with
  | some kv => .error (.unknownOption kv.1)
  | none => ofFields (overlay (initial : σ) given)

/-- Merged settings, and whether there was nothing to change. -/
structure Merged (σ : Type) where
  settings : σ
  unchanged : Bool

def mergePresent (c : σ) (given : Keywords) : Except (Fault Float) (Merged σ) :=
  let unknown := (given.map (·.1)).filter fun name => !(names σ).contains name
  if !unknown.isEmpty then
    .error (.refused (.unknownSettings (unknown.mergeSort fun a b => !(b < a))))
  else if given.isEmpty then .ok ⟨c, true⟩
  else do .ok ⟨← ofFields (overlay c given), false⟩

/-- The settings with the keywords that are present laid over them. -/
def merge (c : σ) (given : Keywords) : Except (Fault Float) (Merged σ) :=
  if given.any (·.1 == receiver) then .error (.unknownOption receiver)
  else mergePresent c (given.filter fun kv => !kv.2.isAbsent)

def write (title : String) (fields : List (String × String)) : String :=
  title ++ "(" ++ ", ".intercalate (fields.map fun (k, v) => k ++ "=" ++ v) ++ ")"

end Settings

namespace Differentiation

instance : Settings Differentiation where
  title := "DifferentiationConfig"
  initial := ⟨.forward, .none⟩
  fields d := [("mode", .plain (.text d.stencil.name)), ("step", .plain d.step)]
  ofFields get := do
    let mode := (get "mode").value?.getD .none
    let step := (get "step").value?.getD .none
    let stencil ← match mode with
      | .text s => match Stencil.named? s with
        | some stencil => .ok stencil
        | none => .error (.refused (.mode mode))
      | _ => .error (.refused (.mode mode))
    match step, step.number? with
    | .none, _ => .ok ⟨stencil, step⟩
    | _, none => .error .wrongType
    | _, some x => if 0.0 < x then .ok ⟨stencil, step⟩ else .error (.refused .step)

/-- The perturbation relative to the iterate; if left open it depends on the stencil. A whole number
beyond all doubles is accepted as a step but cannot be used as one. -/
def relativeStep (d : Differentiation) : Except (Fault Float) Float :=
  match d.step, d.stencil with
  | .none, .forward => .ok (Float.sqrt Scalar.epsilon)
  | .none, .central => .ok (Float.cbrt Scalar.epsilon)
  | v, _ => v.double.mapError .unreadable

def differencing (d : Differentiation) : Differencing Float :=
  ⟨d.stencil == .central, d.relativeStep⟩

end Differentiation

namespace Setting

def written : Setting → String
  | .plain v => v.written
  | .differentiation d =>
    Settings.write (Settings.title Differentiation)
      ((Settings.fields d).map fun (k, v) => (k, (v.value?.getD .none).written))
  | .preconditioning _ => "<function>"

def same : Setting → Setting → Bool
  | .plain v, .plain w => v.same w
  | .differentiation d, .differentiation e => d.stencil == e.stencil && d.step.same e.step
  | .preconditioning p, .preconditioning q => p.key == q.key
  | _, _ => false

end Setting

namespace Settings

variable {σ : Type} [Settings σ]

def text (c : σ) : String :=
  write (title σ) ((fields c).map fun (k, v) => (k, v.written))

def same (c d : σ) : Bool :=
  (List.zipWith (fun x y => x.2.same y.2) (fields c) (fields d)).all id

def isInitial (c : σ) : Bool := same c initial

def isKey (c : σ) : Bool := (fields c).all fun (_, s) => (s.value?.map Value.isKey).getD true

end Settings

structure NoSettings where

instance : Settings NoSettings where
  title := "_PolyrootBaseConfig"
  initial := ⟨⟩
  fields _ := []
  ofFields _ := .ok ⟨⟩

end Rootfinder
