import MemberAccess.Typing.Subtype

/-!
Upper bounds of two types: the greater one if they are related, or else the nearest supertype that
they share.
-/
namespace MemberAccess

/-- The types without a question mark, and whether there was one. A type that loses its question
    mark goes to the left. -/
def Ty.stripNullable : Ty → Ty → Ty × Ty × Bool
  | .nullable l, .nullable r => (l, r, true)
  | .nullable l, r => (l, r, true)
  | l, .nullable r => (r, l, true)
  | l, r => (l, r, false)

namespace Program

def sharedInstance? (P : Program) (i : Instance) :
    List Instance → Except Fault (Option Instance)
  | [] => pure none
  | j :: js => do
    if (← P.superArgs? i j.decl) = some j.args then pure (some j) else P.sharedInstance? i js

/-- Instances of one declaration meet at each argument, other instances at a supertype. All else
    meets at `Object`. -/
def upperBoundByShape (P : Program) (meet : Ty → Ty → Except Fault Ty) :
    Ty → Ty → Except Fault Ty
  | .interface d as, .interface e bs => do
    if d = e ∧ as.length = bs.length then
      pure (.interface d (← (as.zip bs).mapM fun (a, b) => meet a b))
    else
      match ← P.sharedInstance? ⟨e, bs⟩ (← P.supertypes ⟨d, as⟩) with
      | some i => pure i.type
      | none => pure .object
  | _, _ => pure .object

def upperBound (P : Program) : Nat → Ty → Ty → Except Fault Ty
  | 0, _, _ => pure Ty.object.orNull
  | n + 1, left, right => do
    if ← P.subtype (n + 1) left right then pure right
    else if ← P.subtype (n + 1) right left then pure left
    else if left.isNull then pure right.orNull
    else if right.isNull then pure left.orNull
    else
      let (l, r, nullable) := Ty.stripNullable left right
      let bound ← P.upperBoundByShape (P.upperBound n) l r
      pure (if nullable then bound.orNull else bound)

end Program

end MemberAccess
