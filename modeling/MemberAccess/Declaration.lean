import MemberAccess.Span
import MemberAccess.Ty.Basic

/-!
Declarations: types with their parameters, and the extensions, views and shorthand targets whose
members an access can resolve to.
-/
namespace MemberAccess

inductive TypeKind where
  | classKind | mixinKind | enumKind | viewKind
  deriving DecidableEq

def TypeKind.keyword : TypeKind → String
  | .classKind => "class"
  | .mixinKind => "mixin"
  | .enumKind => "enum"
  | .viewKind => "view"

/-- The supertypes are given in terms of the parameters. Without any, all but views extend
    `Object`. -/
structure TypeDecl where
  name : String
  kind : TypeKind
  params : List ParamId
  supers : List Ty
  library : LibraryId

def Ty.ofParams (d : TypeId) (params : List ParamId) : Ty := .interface d (params.map .param)

/-- A parameter without a bound is bounded by `Object?`. -/
structure TypeParam where
  name : String
  bound : Option Ty

structure NamedParam where
  name : String
  type : Ty
  required : Bool
  deriving DecidableEq

/-- Getters have a result only, setters one positional parameter. -/
structure Signature where
  params : List ParamId := []
  positional : List Ty := []
  /-- So many of the positional parameters, from the first on, have to be passed. -/
  required : Nat := 0
  named : List NamedParam := []
  result : Option Ty := none
  deriving DecidableEq

namespace Signature

def empty : Signature := {}

def withParams (s : Signature) (ps : List ParamId) : Signature :=
  { s with params := s.params ++ ps }

def withRequired (s : Signature) (t : Ty) : Except Fault Signature :=
  if s.required = s.positional.length then
    .ok { s with positional := s.positional ++ [t], required := s.required + 1 }
  else .error (.requiredAfterOptional s.required s.positional.length)

def withOptional (s : Signature) (t : Ty) : Signature :=
  { s with positional := s.positional ++ [t] }

def withNamed (s : Signature) (p : NamedParam) : Signature := { s with named := s.named ++ [p] }

def withResult (s : Signature) (t : Ty) : Signature := { s with result := some t }

def getter (t : Ty) : Signature := { result := some t }

def setter (t : Ty) : Signature := { positional := [t], required := 1 }

def named? (s : Signature) (name : String) : Option NamedParam :=
  s.named.find? (·.name = name)

end Signature

inductive MemberKind where
  | getter | setter | method | operator | staticGetter | staticFunction | constructor
  deriving DecidableEq

namespace MemberKind

def name : MemberKind → String
  | .getter => "getter"
  | .setter => "setter"
  | .method => "method"
  | .operator => "operator"
  | .staticGetter => "static getter"
  | .staticFunction => "static function"
  | .constructor => "constructor"

def isStatic : MemberKind → Bool
  | .staticGetter | .staticFunction | .constructor => true
  | _ => false

def isGetter : MemberKind → Bool
  | .getter | .staticGetter => true
  | _ => false

def isInvocable : MemberKind → Bool
  | .method | .operator | .staticFunction | .constructor => true
  | _ => false

end MemberKind

structure Member where
  name : String
  kind : MemberKind
  constant : Bool := false
  sig : Signature := {}
  span : Span := .zero

/-- Whether a view type is a subtype of the type that represents it. -/
inductive Exposure where
  | hidden | shown
  deriving DecidableEq

inductive DeclBody where
  | extension (receiver : Ty)
  | view (type : TypeId) (representation : Ty) (exposure : Exposure)
  /-- The static members of a type declaration. -/
  | shorthand (target : TypeId)
  deriving DecidableEq

namespace DeclBody

def name : DeclBody → String
  | .extension _ => "extension"
  | .view .. => "view"
  | .shorthand _ => "shorthand target"

def target? : DeclBody → Option TypeId
  | .extension _ => none
  | .view type .. => some type
  | .shorthand target => some target

end DeclBody

structure Decl where
  binder : Option String
  params : List ParamId
  members : Table .member Member := .empty
  library : LibraryId
  span : Span := .zero
  body : DeclBody

namespace Decl

def isGeneric (d : Decl) : Bool := !d.params.isEmpty

def appliesTo (d : Decl) : Ty :=
  match d.body with
  | .extension receiver => receiver
  | .view type .. => .ofParams type d.params
  | .shorthand target => .ofParams target d.params

def membersNamed (d : Decl) (name : String) : List (MemberId × Member) :=
  d.members.toList.filter fun m => m.2.name = name

end Decl

end MemberAccess
