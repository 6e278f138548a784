import MemberAccess.Resolution.Basic

/-!
Which of the visible declarations have a fitting member and apply to the type at hand. Extensions
and views apply to the types that unify with theirs, shorthand targets and views to the context
types that denote them.
-/
namespace MemberAccess.Session

def applies (s : Session) (site : Site) (denoted : List TypeId) (d : Decl) :
    Except Fault Bool :=
  match site.receiver, d.body with
  | .value _, .extension _ | .value _, .view .. => do
    pure (← s.oracle.unify d.appliesTo site.context d.params).isSome
  | .shorthand .., .view target .. | .shorthand .., .shorthand target =>
    pure (target ∈ denoted)
  | _, _ => pure false

def applicableAmong (s : Session) (site : Site) (denoted : List TypeId) :
    List DeclId → Except Fault (List DeclId)
  | [] => pure []
  | d :: ds => do
    let decl ← s.program.decls.fetch d
    let isApplicable ←
      if decl.hasFittingMember site then s.applies site denoted decl else pure false
    let others ← s.applicableAmong site denoted ds
    pure (if isApplicable then d :: others else others)

def applicable (s : Session) (site : Site) (visible : List DeclId) :
    Except Fault (List DeclId) := do
  if site.isDynamic then pure []
  else
    let denoted ← if site.isShorthand then s.oracle.denoted site.context else pure []
    s.applicableAmong site denoted visible.eraseDups

end MemberAccess.Session
