/-!
The health of a computation that goes on after errors.
-/
namespace MemberAccess

/-- Evidence that an error has been reported. -/
structure Reported where
  deriving DecidableEq

/-- Of several errors the first one is kept. -/
inductive Health where
  | untainted
  | tainted (evidence : Reported)
  deriving DecidableEq

namespace Health

def isTainted : Health → Bool
  | .untainted => false
  | .tainted _ => true

def taint (h : Health) (evidence : Reported) : Health :=
  match h with
  | .untainted => .tainted evidence
  | .tainted first => .tainted first

def absorb (h : Health) : Except Reported α → Option α × Health
  | .ok a => (some a, h)
  | .error evidence => (none, h.taint evidence)

end Health

structure Outcome (α : Type) where
  value : α
  health : Health

/-- Only an untainted value counts as a success. -/
def Outcome.toExcept (o : Outcome α) : Except Reported α :=
  match o.health with
  | .untainted => .ok o.value
  | .tainted evidence => .error evidence

end MemberAccess
