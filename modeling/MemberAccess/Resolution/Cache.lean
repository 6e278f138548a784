import MemberAccess.Diagnostic.Health
import MemberAccess.Resolution.Resolve

/-!
Caching of resolutions by the spans of their sites. An entry never changes: to record another
resolution for a span is an internal error.
-/
namespace MemberAccess

structure Cache where
  entries : List (Span × Resolution)

namespace Cache

def empty : Cache := ⟨[]⟩

def get? (c : Cache) (span : Span) : Option Resolution := c.entries.lookup span

def size (c : Cache) : Nat := c.entries.length

def insert (c : Cache) (span : Span) (r : Resolution) : Cache := ⟨c.entries ++ [(span, r)]⟩

def conflict (site : Site) : Diagnostic :=
  Diagnostic.bug
    |>.withMessage ("the resolution of " ++ Text.quote site.name ++ " changed")
    |>.withUnlabeledSpan site.span
    |>.withNote
      "resolution has to be a pure function of the site and its visible declarations"

/-- Record a resolution, which is an error if it contradicts the one of the span. -/
def commit (c : Cache) (site : Site) (r : Resolution) :
    Reporting (Except Reported Unit × Cache) :=
  match c.get? site.span with
  | none => pure (.ok (), c.insert site.span r)
  | some recorded =>
    if recorded = r then pure (.ok (), c)
    else do
      Reporting.report (conflict site)
      pure (.error {}, c)

def resolve (c : Cache) (s : Session) (site : Site) : Reporting (Resolution × Cache) := do
  match c.get? site.span with
  | some r => pure (r, c)
  | none => do
    let r ← s.resolve site
    let (_, c) ← c.commit site r
    pure (r, c)

end Cache

end MemberAccess
