import MemberAccess.Typing.Supertypes

/-!
Subtyping. The depth of a derivation is limited, since the bounds of type parameters can refer to
each other; a derivation that would have to be deeper is none.
-/
namespace MemberAccess

def pairwise (holds : α → β → Except Fault Bool) (as : List α) (bs : List β) :
    Except Fault Bool :=
  if as.length = bs.length then (as.zip bs).allM fun (a, b) => holds a b else pure false

namespace Ty

/-- The top types are `dynamic`, `void`, `Object?` and what is built from them. -/
def isTop : Ty → Bool
  | .dynamic | .void => true
  | .nullable t => t.isObject || t.isTop
  | .futureOr t => t.isTop
  | _ => false

def admitsNull : Nat → Ty → Bool
  | 0, _ => false
  | _ + 1, .unknown | _ + 1, .dynamic | _ + 1, .void | _ + 1, .nullable _ => true
  | n + 1, .futureOr t => admitsNull n t
  | _ + 1, t => t.isNull

end Ty

namespace Program

/-- Whether the type is a subtype of `Object`. A view is one only if its representation is. -/
def isNonNull (P : Program) : Nat → Ty → Except Fault Bool
  | 0, _ => pure false
  | n + 1, t =>
    match t with
    | .interface d as => do pure (← P.superArgs? ⟨d, as⟩ .object).isSome
    | .func .. | .record _ | .never | .unknown => pure true
    | .futureOr t => P.isNonNull n t
    | .param p => do P.isNonNull n (← P.boundOf p)
    | .promoted p bound => do
      if ← P.isNonNull n bound then pure true else P.isNonNull n (.param p)
    | .dynamic | .void | .nullable _ => pure false

/-- The rules for types that the rules for unions leave over. Type arguments are covariant,
    parameters of functions contravariant. -/
def subtypeByShape (P : Program) (le : Ty → Ty → Except Fault Bool) : Ty → Ty → Except Fault Bool
  | .param p, sup => do le (← P.boundOf p) sup
  | .promoted p bound, sup => do
    if ← le (.param p) sup then pure true else le bound sup
  | .interface d as, .interface e bs => do
    match ← P.superArgs? ⟨d, as⟩ e with
    | some args => pairwise le args bs
    | none => pure false
  | .func ps r, .func qs s => do
    if ← pairwise (fun p q => le q p) ps qs then le r s else pure false
  | .record fs, .record gs => pairwise le fs gs
  | _, _ => pure false

/-- Rules for `Null` and `Object` come first, then those for the unions `t?` and `FutureOr<t>` on
    the left and on the right, and the shape of the types last. -/
def subtype (P : Program) : Nat → Ty → Ty → Except Fault Bool
  | 0, _, _ => pure false
  | n + 1, sub, sup =>
    if sub = sup ∨ sub = .unknown ∨ sup = .unknown then pure true
    else if sup.isTop ∨ sub = .never then pure true
    else if sub = .dynamic ∨ sub = .void ∨ sup = .never then pure false
    else if sub.isNull then pure (sup.admitsNull n)
    else if sup.isObject then P.isNonNull n sub
    else
      match sub, sup with
      | .nullable t, _ => do
        if ← P.subtype n t sup then pure (sup.admitsNull n) else pure false
      | .futureOr t, _ => do
        if ← P.subtype n (.future t) sup then P.subtype n t sup else pure false
      | _, .nullable u => do
        if ← P.subtype n sub u then pure true else P.subtypeByShape (P.subtype n) sub sup
      | _, .futureOr u => do
        if ← P.subtype n sub (.future u) then pure true
        else if ← P.subtype n sub u then pure true
        else P.subtypeByShape (P.subtype n) sub sup
      | _, .promoted p bound => do
        if ← P.subtype n sub (.param p) then P.subtype n sub bound else pure false
      | _, _ => P.subtypeByShape (P.subtype n) sub sup

/-- The limit bounds how many further steps a derivation takes after its first. -/
def isSubtype (P : Program) (limit : Nat) (sub sup : Ty) : Except Fault Bool :=
  P.subtype (limit + 1) sub sup

end Program

end MemberAccess
