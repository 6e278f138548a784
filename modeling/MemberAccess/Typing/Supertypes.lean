import MemberAccess.Program.Basic
import MemberAccess.Ty.Substitution

/-!
The supertypes of an interface type. The walk visits type declarations breadth first and each of
them once, so it ends even where declarations extend each other, or themselves at ever larger
arguments.
-/
namespace MemberAccess

structure Instance where
  decl : TypeId
  args : List Ty
  deriving DecidableEq

namespace Instance

def type (i : Instance) : Ty := .interface i.decl i.args

def ofType? : Ty → Option Instance
  | .interface d as => some ⟨d, as⟩
  | _ => none

end Instance

def TypeDecl.bindings (d : TypeDecl) (args : List Ty) : Substitution :=
  .ofList (d.params.zip args)

/-- Classes, mixins and enums without declared supertypes extend `Object`, unless they are `Object`
    or `Null`. -/
def TypeDecl.extendsObject (d : TypeDecl) (index : TypeId) : Bool :=
  d.supers.isEmpty && d.kind ≠ .viewKind && index ≠ .object && index ≠ .null

def TypeDecl.directSupers (d : TypeDecl) (i : Instance) : List Instance :=
  d.supers.filterMap (fun t => Instance.ofType? (t.substitute (d.bindings i.args)))
    ++ if d.extendsObject i.decl then [⟨.object, []⟩] else []

namespace Program

def visit (P : Program) : Nat → List TypeId → List Instance → Except Fault (List Instance)
  | 0, _, _ => pure []
  | n + 1, visited, waiting =>
    match waiting.dropWhile (·.decl ∈ visited) with
    | [] => pure []
    | i :: rest => do
      let d ← P.types.fetch i.decl
      pure (i :: (← P.visit n (i.decl :: visited) (rest ++ d.directSupers i)))

/-- The type itself and its supertypes, the nearest first. One step for each type declaration is
    enough, and another one for an index that is out of range. -/
def supertypes (P : Program) (i : Instance) : Except Fault (List Instance) :=
  P.visit (P.types.size + 1) [] [i]

def superArgs? (P : Program) (i : Instance) (target : TypeId) :
    Except Fault (Option (List Ty)) := do
  pure (((← P.supertypes i).find? (·.decl = target)).map (·.args))

end Program

end MemberAccess
