import MemberAccess.Diagnostic.Basic

/-!
Reporters of diagnostics. A buffer is a set, so neither the order of reports nor their number
matters.
-/
namespace MemberAccess

structure Buffer where
  diagnostics : List Diagnostic

namespace Buffer

def empty : Buffer := ⟨[]⟩

def insert (b : Buffer) (d : Diagnostic) : Buffer := ⟨Sorted.insert compare d b.diagnostics⟩

def insertAll (b : Buffer) (ds : List Diagnostic) : Buffer := ds.foldl insert b

def count (b : Buffer) (severity : Severity) : Nat :=
  b.diagnostics.countP (·.severity = severity)

end Buffer

structure Reporter where
  silent : Bool := false
  buffer : Buffer := .empty

/-- A silent reporter drops what is reported. -/
def Reporter.report (r : Reporter) (ds : List Diagnostic) : Reporter :=
  if r.silent then r else { r with buffer := r.buffer.insertAll ds }

end MemberAccess
