import MemberAccess.Display
import MemberAccess.Diagnostic.Basic
import MemberAccess.Resolution.Basic
import MemberAccess.Text.Listing

/-!
The diagnostics of failed resolutions.
-/
namespace MemberAccess

def NoMatch.explanation : NoMatch → String
  | .undeclared => "no visible extension, view or static member has this name"
  | .receiverMismatch => "the declarations with a member of this name do not apply to the type"
  | .shapeMismatch => "the members of this name do not accept the given arguments"
  | .dynamicReceiver => "extension members are not applicable to receivers of type ‘dynamic’"

def NoMatch.help : NoMatch → Option String
  | .dynamicReceiver => some "cast the receiver to the type the member is declared for"
  | _ => none

namespace Program

def quoteMember (P : Program) (m : MemberRef) : Except Fault String := do
  pure (Text.quote (← P.showMember m.1 m.2))

def quoteDecl (P : Program) (d : DeclId) : Except Fault String := do
  pure (Text.quote (← P.showDecl d))

def memberSpan (P : Program) (m : MemberRef) : Except Fault Span := do
  pure (← (← P.decls.fetch m.1).members.fetch m.2).span

def explain (P : Program) : Failure → Except Fault Diagnostic
  | .noMatch site name reason =>
    let d := (Diagnostic.error .e003)
      |>.withMessage ("no applicable member " ++ Text.quote name)
      |>.withUnlabeledSpan site
      |>.withNote reason.explanation
    pure (match reason.help with
      | some help => d.withHelp help
      | none => d)
  | .ambiguous site name candidates => do
    let members ← candidates.mapM P.quoteMember
    let spans ← candidates.mapM P.memberSpan
    pure <| (Diagnostic.error .e004)
      |>.withMessage ("ambiguous access of the member " ++ Text.quote name)
      |>.withSpan site "ambiguous access"
      |>.withLabels spans "candidate"
      |>.withNote ("none of " ++ Text.listing .and members ++ " is more specific than all others")
      |>.withHelp "apply the intended extension explicitly"
  | .getterInvoked site name decl => do
    let header ← P.quoteDecl decl
    pure <| (Diagnostic.error .e005)
      |>.withMessage ("the getter " ++ Text.quote name ++ " is invoked like a function")
      |>.withSpan site "invoked with an argument list"
      |>.withNote ("the getter is declared in " ++ header)
      |>.withHelp "remove the argument list"

end Program

end MemberAccess
