import Rootfinder.Session
import Rootfinder.Settings.Configuration

namespace Rootfinder

/-- The arguments of a solve besides the problem: how many beyond those that are known by position,
the options by name, and the names of further options. -/
structure Call where
  extra : Nat
  tolerance : Value
  budget : Value
  norm : Option (Norm Float)
  further : List String

namespace Call

def defaultTolerance : Value := .num 1e-10

def defaultBudget : Value := .int 1000

def plain : Call := ⟨0, defaultTolerance, defaultBudget, none, []⟩

def normOrDefault (c : Call) : Norm Float := c.norm.getD .l2

def positional : List String := ["self", "problem", "alg"]

def clash? (c : Call) : Option String := c.further.find? positional.contains

/-- The options, checked in their order. -/
def options (c : Call) : Except (Fault Float) (Options Float) := do
  match c.further with
  | name :: _ => .error (.unknownOption name)
  | [] => .ok ()
  let tolerance ← c.tolerance.compared
  Refusal.unless .tolerance (!(tolerance < 0.0))
  let budget ← c.budget.compared
  Refusal.unless .budget (!(budget < 0.0))
  let tolerance ← c.tolerance.double.mapError .unreadable
  let budget ← c.budget.truncated.mapError .unreadable
  .ok ⟨tolerance, budget.toNat, c.normOrDefault⟩

end Call

inductive Candidate where
  | newton (search : Option Backtracking) (configuration : Configuration)
  | trustRegion (scheme : TrustRegion.Scheme) (rule : RadiusRule) (configuration : Configuration)
  | klement (limit : Nat) (configuration : Configuration)
  | broyden (limit : Nat) (configuration : Configuration)
  | replay (script : Replay.Script Float) (configuration : Configuration)

namespace Candidate

def lineSearch : Value → Except (Fault Float) (Option Backtracking)
  | .none => .ok none
  | _ => .error (.refused .lineSearch)

def ofScheme (scheme : Value) (rule : Option RadiusRule) (configuration : Configuration) :
    Except (Fault Float) Candidate := do
  let scheme ← TrustRegion.Scheme.ofValue scheme
  .ok (.trustRegion scheme (rule.getD (RadiusRule.ofScheme scheme)) configuration)

/-- A trust region under a scheme with its customary rule. -/
def customary (scheme : TrustRegion.Scheme) (configuration : Configuration) : Candidate :=
  .trustRegion scheme (RadiusRule.ofScheme scheme) configuration

/-- How many resets a secant method is allowed unless told otherwise. -/
def defaultLimit : Nat := 5

/-- The number of resets allowed, without its fraction. -/
def limit (v : Value) : Except (Fault Float) Nat := do
  let x ← v.compared
  Refusal.unless .maxResets (!(x < 0.0))
  let k ← v.truncated.mapError .unreadable
  .ok k.toNat

def configuration : Candidate → Configuration
  | .newton _ c | .trustRegion _ _ c | .klement _ c | .broyden _ c | .replay _ c => c

def name : Candidate → String
  | .newton search _ => Newton.name (search.map Backtracking.params)
  | .trustRegion scheme _ _ => TrustRegion.name scheme
  | .klement _ _ => Klement.name
  | .broyden _ _ => Broyden.name
  | .replay script _ => script.label

def text : Candidate → String
  | .newton none _ => "NewtonRaphson()"
  | .newton (some search) _ => "NewtonRaphson(linesearch=" ++ Settings.text search ++ ")"
  | .trustRegion scheme _ _ =>
    "TrustRegion(radius_update_scheme=RadiusUpdateScheme." ++ scheme.label ++ ")"
  | .klement _ _ => "Klement()"
  | .broyden _ _ => "Broyden()"
  | .replay _ _ => "Scripted()"

/-- Whether two candidates are the same method with the same parameters and configuration; scripts
are not compared. -/
def same (a b : Candidate) : Bool :=
  Settings.same a.configuration b.configuration &&
  match a, b with
  | .newton none _, .newton none _ => true
  | .newton (some s) _, .newton (some t) _ => Settings.same s t
  | .trustRegion s r _, .trustRegion t q _ => s == t && Settings.same r q
  | .klement k _, .klement l _ => k == l
  | .broyden k _, .broyden l _ => k == l
  | .replay _ _, .replay _ _ => true
  | _, _ => false

def isKey : Candidate → Bool
  | .trustRegion _ rule _ => Settings.isKey rule
  | _ => true

/-- Whether systems of a calling convention can be solved; the secant methods need values
returned. -/
def supports (inPlace : Bool) : Candidate → Bool
  | .klement _ _ | .broyden _ _ => !inPlace
  | .replay script _ => script.supports
  | _ => true

variable [LinearRoutines Float]

/-- The method with its parameters in numbers. -/
def algorithm : Candidate → Algorithm Float
  | .newton search c => .newton (search.map Backtracking.params) c.linearization
  | .trustRegion scheme rule c => .trustRegion scheme rule.params c.linearization
  | .klement limit _ => .klement limit
  | .broyden limit _ => .broyden limit
  | .replay script _ => .replay script

variable {n : Nat}

/-- Sets a candidate to work on a problem. -/
def init (c : Candidate) (call : Call) (problem : Problem Float n) :
    Act Float Unit (Session Float n) :=
  let inPlace := problem.system.isInPlace
  if let some name := call.clash? then Act.raise (.unknownOption name)
  else if 0 < call.extra then Act.raise (.extraArguments c.name call.extra)
  else if !c.supports inPlace then Act.raise (.unsupported c.name inPlace)
  else do
    let o ← Act.ofExcept call.options
    Session.start c.algorithm o problem

def solve (c : Candidate) (call : Call) (problem : Problem Float n) :
    Act Float Unit (Run Float n) := do
  let s ← c.init call problem
  Act.within s Session.solve

end Candidate

end Rootfinder
