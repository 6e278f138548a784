import MemberAccess.Declaration

/-!
Programs: the tables of all declarations, which are filled before any access is resolved.
-/
namespace MemberAccess

inductive Clause where
  | all
  | showing (names : List String)
  | hiding (names : List String)
  deriving DecidableEq

/-- What has no name cannot be listed. -/
def Clause.admits : Clause → Option String → Bool
  | .all, _ => true
  | .showing names, some name => name ∈ names
  | .showing _, none => false
  | .hiding names, some name => name ∉ names
  | .hiding _, none => true

structure Import where
  library : LibraryId
  clause : Clause

structure Library where
  name : String
  imports : List Import := []

structure Program where
  types : Table .type TypeDecl
  params : Table .param TypeParam
  decls : Table .decl Decl
  libraries : Table .library Library

def LibraryId.core : LibraryId := ⟨0⟩

namespace Program

def coreClass (name : String) (params : List ParamId) (supers : List Ty) : TypeDecl :=
  ⟨name, .classKind, params, supers, .core⟩

def initial : Program where
  types := .ofList [coreClass "Object" [] [], coreClass "Null" [] [], coreClass "Future" [⟨0⟩] []]
  params := .ofList [⟨"T", none⟩]
  decls := .empty
  libraries := .ofList [⟨"dart:core", []⟩]

def addLibrary (P : Program) (name : String) : Except Fault (LibraryId × Program) := do
  let (library, libraries) ← P.libraries.insert ⟨name, []⟩
  pure (library, { P with libraries })

def addImport (P : Program) (library : LibraryId) (i : Import) : Except Fault Program := do
  let libraries ← P.libraries.modify library fun l => { l with imports := l.imports ++ [i] }
  pure { P with libraries }

def addParam (P : Program) (p : TypeParam) : Except Fault (ParamId × Program) := do
  let (param, params) ← P.params.insert p
  pure (param, { P with params })

/-- Bound a parameter that exists, as is necessary where it occurs in its own bound. -/
def setBound (P : Program) (p : ParamId) (bound : Ty) : Except Fault Program := do
  let params ← P.params.modify p fun q => { q with bound := some bound }
  pure { P with params }

def addType (P : Program) (d : TypeDecl) : Except Fault (TypeId × Program) := do
  let (type, types) ← P.types.insert d
  pure (type, { P with types })

def addDecl (P : Program) (d : Decl) : Except Fault (DeclId × Program) := do
  let (decl, decls) ← P.decls.insert d
  pure (decl, { P with decls })

def addClass (P : Program) (name : String) (params : List ParamId) (supers : List Ty)
    (library : LibraryId) : Except Fault (TypeId × DeclId × Program) := do
  let (type, P) ← P.addType ⟨name, .classKind, params, supers, library⟩
  let (decl, P) ← P.addDecl { binder := some name, params, library, body := .shorthand type }
  pure (type, decl, P)

def addView (P : Program) (name : String) (params : List ParamId) (representation : Ty)
    (exposure : Exposure) (library : LibraryId) : Except Fault (TypeId × DeclId × Program) := do
  let supers := if exposure = .shown then [representation] else []
  let (type, P) ← P.addType ⟨name, .viewKind, params, supers, library⟩
  let (decl, P) ← P.addDecl
    { binder := some name, params, library, body := .view type representation exposure }
  pure (type, decl, P)

def addExtension (P : Program) (binder : Option String) (params : List ParamId) (receiver : Ty)
    (library : LibraryId) : Except Fault (DeclId × Program) :=
  P.addDecl { binder, params, library, body := .extension receiver }

def addMember (P : Program) (d : DeclId) (m : Member) : Except Fault (MemberId × Program) := do
  let decl ← P.decls.fetch d
  let (member, members) ← decl.members.insert m
  let decls ← P.decls.set d { decl with members }
  pure (member, { P with decls })

def boundOf (P : Program) (p : ParamId) : Except Fault Ty := do
  match (← P.params.fetch p).bound with
  | some bound => pure bound
  | none => pure Ty.object.orNull

end Program

end MemberAccess
