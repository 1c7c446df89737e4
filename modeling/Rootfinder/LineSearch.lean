import Rootfinder.Act
import Rootfinder.Norm
import Rootfinder.Problem

namespace Rootfinder.LineSearch

/-- Factor between trials, least step length, share of decrease asked for, and cap on the step. A
cap that cannot be used is noticed when a search begins. -/
structure Params (α : Type) where
  reduction : α
  minAlpha : α
  armijo : α
  maxDelta : Except (Fault α) (Option α)

/-- A point tried, its residual and norm, and the step length that led to it. -/
structure Trial (α : Type) (n : Nat) where
  point : Vec α n
  residual : Vec α n
  norm : α
  alpha : α

variable {α σ : Type} [Scalar α] {n : Nat}

def capped (prm : Params α) (delta : Vec α n) : Act α σ (Vec α n) :=
  match prm.maxDelta with
  | .error e => Act.raise e
  | .ok none => pure delta
  | .ok (some cap) =>
    if Scalar.isInf cap then pure delta
    else
      let size := magnitude delta.toList
      if cap < size then do
        Act.log (.capped size cap)
        pure (delta.map (· * (cap / size)))
      else pure delta

/-- A search under way: the function searched, where it starts, and the norm there. -/
structure Search (α σ : Type) (n : Nat) where
  params : Params α
  residual : Vec α n → Act α σ (Vec α n)
  norm : Norm α
  start : Vec α n
  delta : Vec α n
  current : α

namespace Search

variable (s : Search α σ n)

def trial (alpha : α) : Act α σ (Trial α n) := do
  let x := s.start + Vec.scale alpha s.delta
  let r ← s.residual x
  pure ⟨x, r, s.norm.of r, alpha⟩

def productive (t : Trial α n) : Bool :=
  t.norm ≤ (1.0 - s.params.armijo * t.alpha) * s.current

/-- The better of the best trial so far and a new one; a tie keeps the earlier. -/
def better (best : Option (Trial α n)) (t : Trial α n) : Option (Trial α n) :=
  if t.norm < (best.map Trial.norm).getD s.current then some t else best

def conclude : Option (Trial α n) → Act α σ (Trial α n)
  | some t => do
    Act.log (.bestTaken t.alpha t.norm)
    pure t
  | none => Act.raise (.noProductiveStep s.params.minAlpha)

/-- Trials of decreasing length. Where rounding keeps the length from shrinking any further, the
same trial would be repeated for ever; `fuel` is not used up before that. -/
def trials : Nat → α → Option (Trial α n) → Act α σ (Trial α n)
  | 0, _, _ => Act.raise .endless
  | fuel + 1, alpha, best =>
    let shorter (best : Option (Trial α n)) : Act α σ (Trial α n) :=
      if alpha * s.params.reduction < alpha then trials fuel (alpha * s.params.reduction) best
      else Act.raise .endless
    if s.params.minAlpha ≤ alpha then do
      let t ← s.trial alpha
      if !Scalar.isFinite t.norm then
        Act.log (.nonFiniteTrial alpha)
        shorter best
      else if s.productive t then
        Act.log (.productive alpha t.norm s.current)
        pure t
      else shorter (s.better best t)
    else s.conclude best

end Search

/-- More step lengths than there are doubles from zero to one. -/
def patience : Nat := Nat.pow 2 62

def search (prm : Params α) (residual : Vec α n → Act α σ (Vec α n)) (norm : Norm α)
    (start delta : Vec α n) (current : α) : Act α σ (Trial α n) := do
  let delta ← capped prm delta
  Search.trials ⟨prm, residual, norm, start, delta, current⟩ patience 1.0 none

def searchAlong (prm : Params α) (residual : Vec α n → Act α σ (Vec α n)) (norm : Norm α)
    (start : Vec α n) (components : List α) (current : α) :
    Act α σ (Trial α n) := do
  let given ← capped prm (Vec.counted components)
  let delta ← Act.ofExcept (Vec.spread n given.toList)
  Search.trials ⟨prm, residual, norm, start, delta, current⟩ patience 1.0 none

end Rootfinder.LineSearch
