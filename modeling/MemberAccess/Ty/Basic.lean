import MemberAccess.Table

/-!
Types. A type refers to the declarations and the parameters it mentions by their index.
-/
namespace MemberAccess

inductive Ty where
  /-- The placeholder `_` of a type that is known in part only. -/
  | unknown
  | dynamic
  | void
  | never
  | interface (decl : TypeId) (args : List Ty)
  | nullable (ty : Ty)
  | futureOr (ty : Ty)
  | param (p : ParamId)
  /-- A type parameter that is known to have a more special type. -/
  | promoted (p : ParamId) (bound : Ty)
  | func (params : List Ty) (ret : Ty)
  | record (fields : List Ty)

def TypeId.object : TypeId := ⟨0⟩
def TypeId.null : TypeId := ⟨1⟩
def TypeId.future : TypeId := ⟨2⟩

namespace Ty

mutual
def beq : Ty → Ty → Bool
  | .unknown, .unknown | .dynamic, .dynamic | .void, .void | .never, .never => true
  | .interface d as, .interface e bs => d == e && beqAll as bs
  | .nullable t, .nullable u | .futureOr t, .futureOr u => beq t u
  | .param p, .param q => p == q
  | .promoted p t, .promoted q u => p == q && beq t u
  | .func ps r, .func qs s => beqAll ps qs && beq r s
  | .record fs, .record gs => beqAll fs gs
  | _, _ => false

def beqAll : List Ty → List Ty → Bool
  | [], [] => true
  | t :: ts, u :: us => beq t u && beqAll ts us
  | _, _ => false
end

mutual
theorem beq_iff (t u : Ty) : beq t u = true ↔ t = u := by
  cases t <;> cases u <;> simp [beq, beq_iff, beqAll_iff]

theorem beqAll_iff (ts us : List Ty) : beqAll ts us = true ↔ ts = us := by
  cases ts <;> cases us <;> simp [beqAll, beq_iff, beqAll_iff]
end

instance : DecidableEq Ty := fun t u => decidable_of_iff _ (beq_iff t u)

instance : Inhabited Ty := ⟨.dynamic⟩

def object : Ty := .interface .object []

def null : Ty := .interface .null []

def future (t : Ty) : Ty := .interface .future [t]

/-- The type `t?`. Types that admit null by themselves stay as they are. -/
def orNull : Ty → Ty
  | .dynamic => .dynamic
  | .void => .void
  | .unknown => .unknown
  | .nullable t => .nullable t
  | t => .nullable t

def isNull : Ty → Bool
  | .interface d _ => d = .null
  | _ => false

def isObject : Ty → Bool
  | .interface d _ => d = .object
  | _ => false

mutual
def parts : Ty → List Ty
  | .interface d as => .interface d as :: partsAll as
  | .nullable t => .nullable t :: parts t
  | .futureOr t => .futureOr t :: parts t
  | .promoted p bound => .promoted p bound :: parts bound
  | .func ps r => .func ps r :: (partsAll ps ++ parts r)
  | .record fs => .record fs :: partsAll fs
  | .unknown => [.unknown]
  | .dynamic => [.dynamic]
  | .void => [.void]
  | .never => [.never]
  | .param p => [.param p]

def partsAll : List Ty → List Ty
  | [] => []
  | t :: ts => parts t ++ partsAll ts
end

def param? : Ty → Option ParamId
  | .param p | .promoted p _ => some p
  | _ => none

def params (t : Ty) : List ParamId := (t.parts.filterMap param?).eraseDups

def mentionsAny (t : Ty) (ps : List ParamId) : Bool := t.params.any (· ∈ ps)

def hasUnknown (t : Ty) : Bool := t.parts.any (· = .unknown)

def isClosed (t : Ty) : Bool := t.parts.all fun part => part.param? = none ∧ part ≠ .unknown

mutual
/-- Replace type parameters. A promotion lasts only as long as its parameter does. -/
def replace (f : ParamId → Option Ty) : Ty → Ty
  | .interface d as => .interface d (replaceAll f as)
  | .nullable t => (replace f t).orNull
  | .futureOr t => .futureOr (replace f t)
  | .param p => (f p).getD (.param p)
  | .promoted p bound => (f p).getD (.promoted p (replace f bound))
  | .func ps r => .func (replaceAll f ps) (replace f r)
  | .record fs => .record (replaceAll f fs)
  | .unknown => .unknown
  | .dynamic => .dynamic
  | .void => .void
  | .never => .never

def replaceAll (f : ParamId → Option Ty) : List Ty → List Ty
  | [] => []
  | t :: ts => replace f t :: replaceAll f ts
end

theorem partsAll_eq_flatMap (ts : List Ty) : partsAll ts = ts.flatMap parts := by
  induction ts <;> simp_all [partsAll]

theorem replaceAll_eq_map (f : ParamId → Option Ty) (ts : List Ty) :
    replaceAll f ts = ts.map (replace f) := by
  induction ts <;> simp_all [replaceAll]

end Ty

end MemberAccess
