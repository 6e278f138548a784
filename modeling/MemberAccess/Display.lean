import MemberAccess.Program.Basic
import MemberAccess.Ty.Substitution

/-!
Types and declarations in the syntax of the language, as they are quoted in messages.
-/
namespace MemberAccess

namespace Display

def commas (items : List String) : String := ", ".intercalate items

def angled (items : List String) : String :=
  if items.isEmpty then "" else "<" ++ commas items ++ ">"

/-- A single field is followed by a comma, which tells it from a parenthesized type. -/
def fieldList : List String → String
  | [field] => "(" ++ field ++ ",)"
  | fields => "(" ++ commas fields ++ ")"

/-- A question mark binds tighter than `Function`. -/
def questionMark : Ty → String → String
  | .func .., text => "(" ++ text ++ ")?"
  | _, text => text ++ "?"

end Display

namespace Program

open Display

def showParam (P : Program) (p : ParamId) : Except Fault String := do
  pure (← P.params.fetch p).name

def showTypeName (P : Program) (d : TypeId) : Except Fault String := do
  pure (← P.types.fetch d).name

mutual
def showType (P : Program) : Ty → Except Fault String
  | .unknown => pure "_"
  | .dynamic => pure "dynamic"
  | .void => pure "void"
  | .never => pure "Never"
  | .interface d as => do pure ((← P.showTypeName d) ++ angled (← P.showTypes as))
  | .nullable t => do pure (questionMark t (← P.showType t))
  | .futureOr t => do pure ("FutureOr<" ++ (← P.showType t) ++ ">")
  | .param p => P.showParam p
  | .promoted p bound => do pure ((← P.showParam p) ++ " & " ++ (← P.showType bound))
  | .func ps r => do
    pure ((← P.showType r) ++ " Function(" ++ commas (← P.showTypes ps) ++ ")")
  | .record fs => do pure (fieldList (← P.showTypes fs))

def showTypes (P : Program) : List Ty → Except Fault (List String)
  | [] => pure []
  | t :: ts => do pure ((← P.showType t) :: (← P.showTypes ts))
end

def showBoundedParam (P : Program) (p : ParamId) : Except Fault String := do
  let param ← P.params.fetch p
  match param.bound with
  | some bound => pure (param.name ++ " extends " ++ (← P.showType bound))
  | none => pure param.name

def showBoundedParams (P : Program) (ps : List ParamId) : Except Fault String := do
  pure (angled (← ps.mapM P.showBoundedParam))

def showDecl (P : Program) (d : DeclId) : Except Fault String := do
  let decl ← P.decls.fetch d
  match decl.body with
  | .extension receiver =>
    let binder := match decl.binder with
      | some name => " " ++ name
      | none => ""
    pure ("extension" ++ binder ++ (← P.showBoundedParams decl.params) ++ " on " ++
      (← P.showType receiver))
  | .view type representation _ =>
    pure ("view " ++ (← P.showTypeName type) ++ (← P.showBoundedParams decl.params) ++ "(" ++
      (← P.showType representation) ++ ")")
  | .shorthand target =>
    let type ← P.types.fetch target
    pure (type.kind.keyword ++ " " ++ type.name ++ (← P.showBoundedParams decl.params))

/-- A member is qualified by the name of its declaration, or by the header if there is no name. The
    constructor `new` goes by the name of its declaration alone. -/
def showMember (P : Program) (d : DeclId) (m : MemberId) : Except Fault String := do
  let decl ← P.decls.fetch d
  let member ← decl.members.fetch m
  let qualifier ← match decl.binder with
    | some name => pure name
    | none => do pure ("⟨" ++ (← P.showDecl d) ++ "⟩")
  if member.kind = .constructor ∧ member.name = "new" then pure qualifier
  else pure (qualifier ++ "." ++ member.name)

def showNamedParam (P : Program) (p : NamedParam) : Except Fault String := do
  pure ((if p.required then "required " else "") ++ (← P.showType p.type) ++ " " ++ p.name)

/-- Required parameters stand alone, optional ones in brackets and named ones in braces. -/
def showSignature (P : Program) (s : Signature) : Except Fault String := do
  let result ← match s.result with
    | some t => P.showType t
    | none => pure "void"
  let params ← s.params.mapM P.showParam
  if s.positional.length < s.required then throw .splitPastEnd
  let required ← P.showTypes (s.positional.take s.required)
  let optional ← P.showTypes (s.positional.drop s.required)
  let named ← s.named.mapM P.showNamedParam
  let groups :=
    (if required.isEmpty then [] else [commas required])
      ++ (if optional.isEmpty then [] else ["[" ++ commas optional ++ "]"])
      ++ (if named.isEmpty then [] else ["\x7b" ++ commas named ++ "\x7d"])
  pure (result ++ " Function" ++ angled params ++ "(" ++ commas groups ++ ")")

def showSubstitution (P : Program) (s : Substitution) : Except Fault String := do
  pure (commas (← s.entries.mapM fun e => do
    pure ((← P.showParam e.1) ++ " = " ++ (← P.showType e.2))))

end Program

end MemberAccess
