import Rootfinder.Method.TrustRegion
import Rootfinder.Settings.Basic

namespace Rootfinder

structure Backtracking where
  alphaReduction : Value
  minAlpha : Value
  armijo : Value
  maxDelta : Value

namespace Backtracking

def initial : Backtracking := ⟨.num 0.5, .num 1e-4, .num 0.1, .none⟩

def check (b : Backtracking) : Except (Fault Float) Unit := do
  let reduction ← b.alphaReduction.compared
  Refusal.unless .alphaReduction (0.0 < reduction && reduction < 1.0)
  let least ← b.minAlpha.compared
  Refusal.unless .minAlpha (0.0 < least && least ≤ 1.0)
  let armijo ← b.armijo.compared
  Refusal.unless .armijo (0.0 < armijo && armijo < 1.0)
  match b.maxDelta with
  | .none => .ok ()
  | v => do
    let cap ← v.compared
    Refusal.unless .maxDelta (!(cap ≤ 0.0))

instance : Settings Backtracking where
  title := "BackTracking"
  initial := initial
  fields b := [("alpha_reduction", .plain b.alphaReduction), ("min_alpha", .plain b.minAlpha),
    ("armijo_c", .plain b.armijo), ("max_delta", .plain b.maxDelta)]
  ofFields get := do
    let value (name : String) := (get name).value?.getD .none
    let b : Backtracking :=
      ⟨value "alpha_reduction", value "min_alpha", value "armijo_c", value "max_delta"⟩
    b.check
    .ok b

/-- A cap as a machine number, which a whole number is if it fits into 64 bits. -/
def cap : Value → Except (Fault Float) (Option Float)
  | .int i => if i < Nat.pow 2 64 then .ok (some (Float.ofInt i)) else .error .wrongType
  | v => .ok v.number?

def params (b : Backtracking) : LineSearch.Params Float :=
  ⟨b.alphaReduction.number?.getD 0.0, b.minAlpha.number?.getD 0.0, b.armijo.number?.getD 0.0,
   cap b.maxDelta⟩

end Backtracking

namespace TrustRegion.Threshold

/-- A whole number as a bound. If it is no double, it lies between the nearest one and that one's
neighbour on its other side, which may be an infinity. -/
def ofWhole (i : Int) : Threshold Float :=
  let x := Float.ofInt i
  if Value.wholeIs i x then .value x
  else
    let beyond : Bool := match (Value.num x).truncated with
      | .ok k => i.natAbs < k.natAbs
      | .error _ => true
    let y := Float.ofBits (if beyond then x.toBits - 1 else x.toBits + 1)
    if x < y then .between x y else .between y x

def ofValue : Value → Threshold Float
  | .num x => .value x
  | v => match v.whole? with
    | some i => ofWhole i
    | none => .unordered

end TrustRegion.Threshold

structure RadiusRule where
  stepThreshold : Value
  shrinkThreshold : Value
  expandThreshold : Value
  shrinkFactor : Value
  expandFactor : Value
  maxShrinkTimes : Value

namespace RadiusRule

def initial : RadiusRule := ⟨.num 1e-4, .num 0.25, .num 0.75, .num 0.25, .num 2.0, .int 32⟩

/-- The customary values of each scheme. -/
def ofScheme : TrustRegion.Scheme → RadiusRule
  | .simple => initial
  | .nlsolve => ⟨.num 1e-4, .num 0.1, .num 0.9, .num 0.5, .num 2.0, .int 32⟩
  | .bastin => ⟨.num 0.05, .num 0.05, .num 0.9, .num 0.25, .num 2.5, .int 32⟩
  | .fan => ⟨.num 1e-4, .num 0.25, .num 0.75, .num 0.25, .num 4.0, .int 32⟩

/-- The customary values of the scheme with a given name. -/
def ofValue (v : Value) : Except (Fault Float) RadiusRule :=
  match TrustRegion.Scheme.all.find? fun scheme => v.same (.text scheme.name) with
  | some scheme => .ok (ofScheme scheme)
  | none => .error (.refused (.scheme v))

def check (r : RadiusRule) : Except (Fault Float) Unit := do
  let shrink ← r.shrinkFactor.compared
  Refusal.unless .shrinkFactor (0.0 < shrink && shrink < 1.0)
  let expand ← r.expandFactor.compared
  Refusal.unless .expandFactor (!(expand ≤ 1.0))
  let times ← r.maxShrinkTimes.compared
  Refusal.unless .maxShrinkTimes (!(times ≤ 0.0))

instance : Settings RadiusRule where
  title := "TrustRegionParams"
  initial := initial
  fields r := [("step_threshold", .plain r.stepThreshold),
    ("shrink_threshold", .plain r.shrinkThreshold),
    ("expand_threshold", .plain r.expandThreshold), ("shrink_factor", .plain r.shrinkFactor),
    ("expand_factor", .plain r.expandFactor), ("max_shrink_times", .plain r.maxShrinkTimes)]
  ofFields get := do
    let value (name : String) := (get name).value?.getD .none
    let r : RadiusRule :=
      ⟨value "step_threshold", value "shrink_threshold", value "expand_threshold",
       value "shrink_factor", value "expand_factor", value "max_shrink_times"⟩
    r.check
    .ok r

/-- The rule in numbers. A limit on shrinking counts without its fraction, and one that is infinite
or not a number is none. -/
def params (r : RadiusRule) : TrustRegion.Params Float where
  stepThreshold := TrustRegion.Threshold.ofValue r.stepThreshold
  shrinkThreshold := TrustRegion.Threshold.ofValue r.shrinkThreshold
  expandThreshold := TrustRegion.Threshold.ofValue r.expandThreshold
  shrinkFactor := r.shrinkFactor.number?.getD 0.0
  expandFactor := r.expandFactor.double.mapError .unreadable
  maxShrinkTimes := r.maxShrinkTimes.truncated.toOption.map Int.toNat

end RadiusRule

def TrustRegion.Scheme.ofValue (v : Value) : Except (Fault Float) TrustRegion.Scheme :=
  match v with
  | .text s => match TrustRegion.Scheme.named? s with
    | some scheme => .ok scheme
    | none => .error (.unknownName s)
  | v => .error (.unknownName v.written)

end Rootfinder
