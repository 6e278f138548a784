import MemberAccess.Graph.Cycles
import MemberAccess.Program.Basic
import MemberAccess.Ty.Substitution

/-!
Instantiation to bounds: each type parameter is replaced by its bound until no parameter is left.
Parameters whose bounds depend on each other in a cycle are replaced by `dynamic` in these bounds
first.
-/
namespace MemberAccess

structure BoundsOverflow where
  param : ParamId
  deriving DecidableEq

def BoundsOverflow.message (o : BoundsOverflow) : String :=
  "the bounds of the type parameter " ++ o.param.text ++ " do not converge"

abbrev Bounded (α : Type) := Except BoundsOverflow α

namespace Bounds

def dependencies (bounds : List (ParamId × Ty)) (params : List ParamId) : Graph ParamId :=
  bounds.map fun (p, bound) => (p, bound.params.filter (· ∈ params))

def breakCycle (bounds : List (ParamId × Ty)) (cycle : List ParamId) : List (ParamId × Ty) :=
  let breaker := Substitution.ofList (cycle.map fun p => (p, .dynamic))
  bounds.map fun (p, bound) => (p, if p ∈ cycle then bound.substitute breaker else bound)

def firstOpen? (s : Substitution) (params : List ParamId) : Option ParamId :=
  (s.entries.find? fun e => e.2.mentionsAny params).map (·.1)

def converge (params : List ParamId) : Nat → Substitution → Bounded Substitution
  | n, s =>
    match firstOpen? s params, n with
    | none, _ => .ok s
    | some p, 0 => .error ⟨p⟩
    | some _, n + 1 => converge params n (s.mapTypes (·.substitute s))

end Bounds

namespace Program

open Bounds

/-- Parameters that are fixed are not instantiated but substituted into the bounds of the others.
    The result covers the given parameters only. -/
def instantiateParams (P : Program) (limit : Nat) (params : List ParamId) (fixed : Substitution) :
    Except Fault (Bounded Substitution) := do
  let free := params.filter fun p => !fixed.contains p
  let declared ← free.mapM fun p => do pure (p, (← P.boundOf p).substitute fixed)
  let acyclic := (dependencies declared free).cycles.foldl breakCycle declared
  pure ((converge free limit (.ofList acyclic)).map fun s =>
    s.insertAll (params.filterMap fun p => (fixed.get? p).map (p, ·)))

def instantiateDecl (P : Program) (limit : Nat) (d : DeclId) : Except Fault (Bounded Ty) := do
  let decl ← P.decls.fetch d
  pure ((← P.instantiateParams limit decl.params .empty).map decl.appliesTo.substitute)

def instantiateParam (P : Program) (limit : Nat) (p : ParamId) : Except Fault (Bounded Ty) := do
  pure ((← P.instantiateParams limit [p] .empty).map fun s => (s.get? p).getD .dynamic)

end Program

end MemberAccess
