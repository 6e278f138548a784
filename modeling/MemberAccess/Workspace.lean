import MemberAccess.Diagnostic.Buffer
import MemberAccess.Program.Core
import MemberAccess.Resolution.Cache

/-!
A workspace: a program under construction together with the options, the reporter and the cache of
those who ask questions about it.
-/
namespace MemberAccess

structure Workspace where
  program : Program
  options : Options := {}
  reporter : Reporter := {}
  cache : Cache := .empty

namespace Workspace

def ofProgram (P : Program) : Workspace := { program := P }

def session (w : Workspace) : Session := w.program.session w.options

/-- What is reported reaches the reporter only if there is no fault. -/
def complete (w : Workspace) (x : Reporting α) : Except Fault (α × Workspace) := do
  let a ← x.outcome
  pure (a, { w with reporter := w.reporter.report x.reports })

def resolveCached (w : Workspace) (site : Site) : Except Fault (Resolution × Workspace) := do
  let ((r, cache), w) ← w.complete (w.cache.resolve w.session site)
  pure (r, { w with cache })

def commit (w : Workspace) (site : Site) (r : Resolution) :
    Except Fault (Except Reported Unit × Workspace) := do
  let ((result, cache), w) ← w.complete (w.cache.commit site r)
  pure (result, { w with cache })

end Workspace

end MemberAccess
