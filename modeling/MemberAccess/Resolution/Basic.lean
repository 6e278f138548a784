import MemberAccess.Session

/-!
What accesses resolve to. A candidate is a member that an access may mean, a resolution the member
that it does mean or the reason why there is none.
-/
namespace MemberAccess

structure Candidate where
  decl : DeclId
  member : MemberId
  substitution : Substitution
  appliesTo : Ty
  deriving DecidableEq

structure Target where
  decl : DeclId
  member : MemberId
  substitution : Substitution
  deriving DecidableEq

def Candidate.target (c : Candidate) : Target := ⟨c.decl, c.member, c.substitution⟩

abbrev MemberRef := DeclId × MemberId

def Candidate.ref (c : Candidate) : MemberRef := (c.decl, c.member)

inductive NoMatch where
  | undeclared
  | receiverMismatch
  | shapeMismatch
  | dynamicReceiver
  deriving DecidableEq

inductive Failure where
  | noMatch (site : Span) (name : String) (reason : NoMatch)
  | ambiguous (site : Span) (name : String) (candidates : List MemberRef)
  | getterInvoked (site : Span) (name : String) (decl : DeclId)
  deriving DecidableEq

inductive Resolution where
  | resolved (target : Target)
  | failed (failure : Failure)
  deriving DecidableEq

/-- Accesses of values reach instance members, shorthands reach static members and constructors,
    and assignments reach setters only. -/
def Site.fits (s : Site) (kind : MemberKind) : Bool :=
  kind.isStatic == s.isShorthand && s.form.isSet == decide (kind = .setter)

def Decl.fittingMembers (d : Decl) (s : Site) : List (MemberId × Member) :=
  (d.membersNamed s.name).filter fun m => s.fits m.2.kind

def Decl.hasFittingMember (d : Decl) (s : Site) : Bool := !(d.fittingMembers s).isEmpty

end MemberAccess
