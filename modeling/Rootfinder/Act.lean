import Rootfinder.Event

namespace Rootfinder

/-- How a computation ended, the state it left behind, and what it reported. -/
structure Outcome (α σ β : Type) where
  result : Except (Fault α) β
  state : σ
  trace : List (Event α)

/-- A computation that changes a state, may raise, and reports events. What it did to the state and
what it reported remains when it raises. -/
def Act (α σ β : Type) := σ → Outcome α σ β

namespace Act

variable {α σ τ β γ : Type}

def run (x : Act α σ β) (s : σ) : Outcome α σ β := x s

instance : Monad (Act α σ) where
  pure b := fun s => ⟨.ok b, s, []⟩
  bind x f := fun s =>
    match x s with
    | ⟨.error e, s', t⟩ => ⟨.error e, s', t⟩
    | ⟨.ok b, s', t⟩ =>
      let o := f b s'
      ⟨o.result, o.state, t ++ o.trace⟩

def read : Act α σ σ := fun s => ⟨.ok s, s, []⟩

def update (f : σ → σ) : Act α σ Unit := fun s => ⟨.ok (), f s, []⟩

def raise (e : Fault α) : Act α σ β := fun s => ⟨.error e, s, []⟩

def report (e : Event α) : Act α σ Unit := fun s => ⟨.ok (), s, [e]⟩

def log (n : Note α) : Act α σ Unit := report (.note n)

def ofExcept : Except (Fault α) β → Act α σ β
  | .ok b => pure b
  | .error e => raise e

/-- Hands a fault to the caller as a value. -/
def attempt (x : Act α σ β) : Act α σ (Except (Fault α) β) := fun s =>
  let o := x s
  ⟨.ok o.result, o.state, o.trace⟩

/-- Runs a computation on a part of the state. -/
def zoom (get : σ → τ) (put : τ → σ → σ) (x : Act α τ β) : Act α σ β := fun s =>
  let o := x (get s)
  ⟨o.result, put o.state s, o.trace⟩

/-- Runs a computation on a state of its own, which is then dropped. -/
def within (init : τ) (x : Act α τ β) : Act α σ β := fun s =>
  let o := x init
  ⟨o.result, s, o.trace⟩

def each (x : Act α σ Unit) : Act α (List σ) Unit
  | [] => ⟨.ok (), [], []⟩
  | s :: ss =>
    match x s with
    | ⟨.error e, s', t⟩ => ⟨.error e, s' :: ss, t⟩
    | ⟨.ok _, s', t⟩ =>
      let o := each x ss
      ⟨o.result, s' :: o.state, t ++ o.trace⟩

end Act

end Rootfinder
