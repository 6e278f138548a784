import MemberAccess.Diagnostic.Health
import MemberAccess.Resolution.Resolve

/-!
Resolution of many sites at once. The sites are independent of each other, so they are split into
chunks for several workers.
-/
namespace MemberAccess

/-- At least one site makes a chunk, and there are no more chunks than workers. -/
def chunkSize (workers sites : Nat) : Nat := max 1 ((sites + workers - 1) / workers)

def chunksOf (size : Nat) (xs : List α) : List (List α) :=
  (List.range ((xs.length + size - 1) / size)).map fun k => (xs.drop (k * size)).take size

namespace Session

def resolveChunk (s : Session) (sites : List Site) : Reporting (List Resolution) :=
  sites.mapM s.resolve

def resolveAll (s : Session) (workers : Nat) (sites : List Site) :
    Reporting (List Resolution) := do
  let chunks := chunksOf (chunkSize workers sites.length) sites
  pure (← chunks.mapM s.resolveChunk).flatten

def reportFailure (s : Session) (failure : Failure) : Reporting Reported := do
  Reporting.report (← s.program.explain failure)
  pure {}

def reportEach (s : Session) : List Resolution → Health → Reporting (Outcome (List (Option Target)))
  | [], health => pure ⟨[], health⟩
  | resolution :: rest, health => do
    let result ← match resolution with
      | .resolved target => pure (Except.ok target)
      | .failed failure => do pure (Except.error (← s.reportFailure failure))
    let (target, health) := health.absorb result
    let outcome ← s.reportEach rest health
    pure ⟨target :: outcome.value, outcome.health⟩

def reportAll (s : Session) (workers : Nat) (sites : List Site) :
    Reporting (Outcome (List (Option Target))) := do
  s.reportEach (← s.resolveAll workers sites) .untainted

end Session

end MemberAccess
