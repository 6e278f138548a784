import MemberAccess.Site
import MemberAccess.Typing.Bounds
import MemberAccess.Typing.Denotation
import MemberAccess.Typing.Unification

/-!
Sessions: what resolution of accesses relies on. Types and scopes are looked at only through the
oracle and the scope, so that a host can answer for its own.
-/
namespace MemberAccess

structure Oracle where
  isSubtype : Ty → Ty → Except Fault Bool
  /-- Solve for the variables such that the concrete type is a subtype of the pattern. -/
  unify : (pattern concrete : Ty) → (vars : List ParamId) → Except Fault (Option Substitution)
  instantiateParams : List ParamId → (fixed : Substitution) →
    Except Fault (Bounded Substitution)
  instantiateDecl : DeclId → Except Fault (Bounded Ty)
  denoted : Ty → Except Fault (List TypeId)
  isAssignable : (source target : Ty) → Except Fault Bool := fun source target =>
    if source = .dynamic then pure true else isSubtype source target

def Program.oracle (P : Program) (limit : Nat) : Oracle where
  isSubtype := P.isSubtype limit
  unify := P.unify limit
  instantiateParams := P.instantiateParams limit
  instantiateDecl := P.instantiateDecl limit
  denoted t := do pure (← P.denoted limit t).toList

structure Scope where
  visible : Site → Except Fault (List DeclId)
  isConstant : Site → Bool

/-- How candidates are told apart whose types are subtypes of each other. -/
inductive TieBreak where
  | byBounds | never
  deriving DecidableEq

structure Options where
  tieBreak : TieBreak := .byBounds
  /-- The limit of derivations and of instantiation to bounds. -/
  limit : Nat := 64
  trace : Bool := false
  deriving DecidableEq

structure Session where
  program : Program
  oracle : Oracle
  scope : Scope
  options : Options := {}

end MemberAccess
