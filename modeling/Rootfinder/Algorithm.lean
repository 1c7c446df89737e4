import Rootfinder.Method.TrustRegion
import Rootfinder.Method.Klement
import Rootfinder.Method.Broyden
import Rootfinder.Method.Replay

namespace Rootfinder

inductive Algorithm (α : Type) where
  | newton (search : Option (LineSearch.Params α)) (l : Linearization α)
  | trustRegion (scheme : TrustRegion.Scheme) (params : TrustRegion.Params α) (l : Linearization α)
  | klement (limit : Nat)
  | broyden (limit : Nat)
  | replay (script : Replay.Script α)

namespace Algorithm

variable {α : Type} [Scalar α]

def name : Algorithm α → String
  | .newton search _ => Newton.name search
  | .trustRegion scheme _ _ => TrustRegion.name scheme
  | .klement _ => Klement.name
  | .broyden _ => Broyden.name
  | .replay script => script.label

/-- What the method remembers between steps. -/
def Memory : Algorithm α → Nat → Type
  | .newton _ _, _ => Unit
  | .trustRegion _ _ _, n => TrustRegion.Memory α n
  | .klement _, n => Secant.Memory (Vec α n)
  | .broyden _, n => Secant.Memory (Mat α n n)
  | .replay _, _ => Unit

def method (o : Options α) (n : Nat) : (a : Algorithm α) → Method α n (a.Memory n)
  | .newton search l => Newton.method search l o n
  | .trustRegion scheme params l => TrustRegion.method scheme params l o n
  | .klement limit => Klement.method limit o n
  | .broyden limit => Broyden.method limit o n
  | .replay script => Replay.method script o n

end Algorithm

end Rootfinder
