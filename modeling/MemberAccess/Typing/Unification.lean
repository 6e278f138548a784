import MemberAccess.Typing.UpperBound

/-!
Unification: find types for the variables of a pattern such that a concrete type is a subtype of
the pattern. The structure of the concrete type yields lower bounds of the variables, of which
repeated ones are merged. A solution that leaves no variable open is checked.
-/
namespace MemberAccess

namespace Unification

/-- A step either fails or extends the solution found so far. -/
abbrev Step := Substitution → Except Fault (Option Substitution)

namespace Step

def fail : Step := fun _ => pure none

def done : Step := fun s => pure (some s)

def check (holds : Except Fault Bool) : Step := fun s => do
  if ← holds then pure (some s) else pure none

def andThen (first second : Step) : Step := fun s => do
  match ← first s with
  | some s => second s
  | none => pure none

def each (f : α → β → Step) : List (α × β) → Step
  | [] => done
  | (a, b) :: rest => andThen (f a b) (each f rest)

def pairwise (f : α → β → Step) (as : List α) (bs : List β) : Step :=
  if as.length = bs.length then each f (as.zip bs) else fail

end Step

def varOf? (vars : List ParamId) : Ty → Option ParamId
  | .param p => if p ∈ vars then some p else none
  | _ => none

end Unification

namespace Program

open Unification

def bindLower (P : Program) (limit : Nat) (p : ParamId) (t : Ty) : Step := fun s => do
  match s.get? p with
  | none => pure (some (s.insert p t))
  | some lower => do pure (some (s.insert p (← P.upperBound (limit + 1) lower t)))

/-- Variables in the position of a parameter of a function are solved exactly. -/
def matchParam (P : Program) (limit : Nat) (vars : List ParamId) (pattern concrete : Ty) : Step :=
  match varOf? vars pattern with
  | some p => P.bindLower limit p concrete
  | none =>
    if pattern.mentionsAny vars then .fail else .check (P.isSubtype limit pattern concrete)

def matchByShape (P : Program) (limit : Nat) (vars : List ParamId) (go : Ty → Ty → Step) :
    Ty → Ty → Step
  | _, .unknown => .done
  | _, .never => .done
  | .nullable p, .nullable c => go p c
  | .nullable p, c => if c.isNull then .done else go p c
  | .futureOr p, .futureOr c => go p c
  | .futureOr p, .interface d as =>
    if d = .future then
      match as with
      | a :: _ => go p a
      | [] => .fail
    else go p (.interface d as)
  | .futureOr p, c => go p c
  | p, .param x => fun s => do go p (← P.boundOf x) s
  | p, .promoted _ bound => go p bound
  | .interface e ps, .interface d as => fun s => do
    match ← P.superArgs? ⟨d, as⟩ e with
    | some args => Step.pairwise go ps args s
    | none => pure none
  | .func ps r, .func cs t =>
    Step.andThen (Step.pairwise (P.matchParam limit vars) ps cs) (go r t)
  | .record ps, .record cs => Step.pairwise go ps cs
  | _, _ => .fail

def matchType (P : Program) (limit : Nat) (vars : List ParamId) : Nat → Ty → Ty → Step
  | 0, _, _ => .fail
  | n + 1, pattern, concrete =>
    match varOf? vars pattern with
    | some p => P.bindLower limit p concrete
    | none =>
      if pattern.mentionsAny vars then
        P.matchByShape limit vars (P.matchType limit vars n) pattern concrete
      else .check (P.isSubtype limit concrete pattern)

/-- Variables without a lower bound are absent from the solution. -/
def unify (P : Program) (limit : Nat) (pattern concrete : Ty) (vars : List ParamId) :
    Except Fault (Option Substitution) := do
  match ← P.matchType limit vars (limit + 1) pattern concrete .empty with
  | none => pure none
  | some solution =>
    let instantiated := pattern.substitute solution
    if instantiated.mentionsAny vars then pure (some solution)
    else if ← P.isSubtype limit concrete instantiated then pure (some solution)
    else pure none

end Program

end MemberAccess
