import MemberAccess.Program.Basic

/-!
The type declaration that a context type denotes for a shorthand. `t?` and `FutureOr<t>` denote
what `t` denotes, and type parameters what their bound denotes. `Future<t>` stands for itself.
-/
namespace MemberAccess

def Ty.declaration? : Ty → Option TypeId
  | .interface d _ => some d
  | _ => none

namespace Program

def denote (P : Program) : Nat → Ty → Except Fault (Option TypeId)
  | 0, _ => pure none
  | n + 1, t =>
    match t with
    | .interface d _ => pure (some d)
    | .nullable t | .futureOr t | .promoted _ t => P.denote n t
    | .param p => do
      match (← P.params.fetch p).bound with
      | some bound => P.denote n bound
      | none => pure none
    | _ => pure none

def denoted (P : Program) (limit : Nat) (t : Ty) : Except Fault (Option TypeId) :=
  P.denote (limit + 1) t

def denotedArgs? (P : Program) (target : TypeId) : Nat → Ty → Except Fault (Option (List Ty))
  | 0, _ => pure none
  | n + 1, t =>
    match t with
    | .interface d as => pure (if d = target then some as else none)
    | .nullable t | .futureOr t | .promoted _ t => P.denotedArgs? target n t
    | .param p => do
      match (← P.params.fetch p).bound with
      | some bound => P.denotedArgs? target n bound
      | none => pure none
    | _ => pure none

end Program

end MemberAccess
