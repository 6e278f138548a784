import MemberAccess.Resolution.Applicable
import MemberAccess.Resolution.Explanation
import MemberAccess.Resolution.Screening
import MemberAccess.Resolution.Specificity
import MemberAccess.Visibility

/-!
Resolution of a site: the applicable declarations are screened and the candidates that are left
are ranked. With tracing on, each intermediate result is reported.
-/
namespace MemberAccess.Session

/-- The message is not formed unless it is reported. -/
@[macro_inline] def traceWith (s : Session) (site : Site) (message : Except Fault String) :
    Reporting Unit :=
  if s.options.trace then do
    Reporting.report ((Diagnostic.debug.withMessage (← message)).withUnlabeledSpan site.span)
  else pure ()

def describeApplicable (s : Session) (site : Site) (decls : List DeclId) : Except Fault String := do
  let headers ← decls.mapM s.program.quoteDecl
  let amount := decls.length
  pure ("collected " ++ toString amount ++ " " ++ Text.pluralize amount "declaration" ++ " for " ++
    Text.quote site.name ++ ": " ++ Text.listing .and headers)

def describeCandidates (s : Session) (site : Site) (candidates : List Candidate) :
    Except Fault String := do
  let members ← candidates.mapM fun c => s.program.quoteMember c.ref
  let amount := candidates.length
  pure (toString amount ++ " applicable " ++ Text.pluralize amount "candidate" ++ " for " ++
    Text.quote site.name ++ ": " ++ Text.listing .and members)

def describeWinner (s : Session) (site : Site) (c : Candidate) : Except Fault String := do
  let member ← s.program.quoteMember c.ref
  let typeArgs ←
    if c.substitution.isEmpty then pure "no type arguments"
    else do pure (Text.quote (← s.program.showSubstitution c.substitution))
  pure ("resolved " ++ Text.quote site.name ++ " to " ++ member ++ " with " ++ typeArgs)

def anyDeclares (s : Session) (site : Site) : List DeclId → Except Fault Bool
  | [] => pure false
  | d :: ds => do
    if (← s.program.decls.fetch d).hasFittingMember site then pure true else s.anyDeclares site ds

def noApplicable (s : Session) (site : Site) (visible : List DeclId) : Except Fault Resolution := do
  let reason := if ← s.anyDeclares site visible then .receiverMismatch else .undeclared
  pure (.failed (.noMatch site.span site.name reason))

/-- Why no applicable declaration has a candidate. A getter that would be invoked comes first. -/
def noCandidate (site : Site) (screening : Screening) : Resolution :=
  match screening.getterCalls with
  | (decl, _) :: _ => .failed (.getterInvoked site.span site.name decl)
  | [] =>
    let reason := if screening.shapeMismatches.isEmpty then .receiverMismatch else .shapeMismatch
    .failed (.noMatch site.span site.name reason)

def choose (s : Session) (site : Site) (candidates : List Candidate) : Reporting Resolution := do
  match ← s.rank site candidates with
  | .winner c => do
    s.traceWith site (s.describeWinner site c)
    pure (.resolved c.target)
  | .ambiguous maximal =>
    pure (.failed (.ambiguous site.span site.name (maximal.map Candidate.ref)))
  | .none => pure (.failed (.noMatch site.span site.name .receiverMismatch))

def resolveAmong (s : Session) (site : Site) (visible : List DeclId) : Reporting Resolution := do
  if site.isDynamic then pure (.failed (.noMatch site.span site.name .dynamicReceiver))
  else
    let decls ← s.applicable site visible
    s.traceWith site (s.describeApplicable site decls)
    if decls.isEmpty then s.noApplicable site visible
    else
      let screening ← s.screen site decls
      s.traceWith site (s.describeCandidates site screening.candidates)
      if screening.candidates.isEmpty then pure (noCandidate site screening)
      else s.choose site screening.candidates

def resolve (s : Session) (site : Site) : Reporting Resolution := do
  s.resolveAmong site (← s.scope.visible site)

end MemberAccess.Session
