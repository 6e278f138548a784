import MemberAccess.Resolution.Basic

/-!
Constant accesses. Selectors after an access are never constant.
-/
namespace MemberAccess.Session

def isConstantMember (s : Session) (site : Site) (m : Member) (substitution : Substitution) :
    Bool :=
  match m.kind, site.form with
  | .staticGetter, .get => m.constant
  | .constructor, .call a =>
    m.constant && s.scope.isConstant site && a.all.all (·.constant) && substitution.isClosed
  | .staticFunction, .get | .constructor, .get => substitution.isClosed
  | _, _ => false

def isConstant (s : Session) (site : Site) (t : Target) : Except Fault Bool := do
  if site.selectors.isEmpty then
    let m ← (← s.program.decls.fetch t.decl).members.fetch t.member
    pure (s.isConstantMember site m t.substitution)
  else pure false

end MemberAccess.Session
