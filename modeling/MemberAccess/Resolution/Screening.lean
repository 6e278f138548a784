import MemberAccess.Resolution.Basic

/-!
Screening of applicable declarations. The type arguments of each one are inferred, and its members
are tried in order until one accepts the arguments of the access.
-/
namespace MemberAccess

/-- Members that only the shape of an access rules out are remembered. -/
structure Screening where
  candidates : List Candidate := []
  getterCalls : List MemberRef := []
  shapeMismatches : List MemberRef := []
  deriving DecidableEq

namespace Screening

def append (a b : Screening) : Screening :=
  ⟨a.candidates ++ b.candidates, a.getterCalls ++ b.getterCalls,
    a.shapeMismatches ++ b.shapeMismatches⟩

def concat (parts : List Screening) : Screening := parts.foldr append {}

end Screening

inductive Shape where
  | accepted (substitution : Substitution)
  | getterCall
  | mismatch

namespace Session

/-- Explicit type arguments of the right number take precedence over those of the context. What is
    not fully known is left to instantiation to bounds. -/
def constructorArgs (s : Session) (site : Site) (d : Decl) : Except Fault Substitution := do
  let explicit := match site.form with
    | .call { types := some types, .. } =>
      if types.length = d.params.length then some types else none
    | _ => none
  let args ← match explicit, d.body.target? with
    | some types, _ => pure (some types)
    | none, some target => s.program.denotedArgs? target s.options.limit site.context
    | none, none => pure none
  pure (.ofList ((d.params.zip (args.getD [])).filter fun e => !e.2.hasUnknown))

def respectsBounds (s : Session) (solved substitution : Substitution) : Except Fault Bool :=
  solved.entries.allM fun (p, t) => do
    match (← s.program.params.fetch p).bound with
    | some bound => s.oracle.isSubtype t (bound.substitute substitution)
    | none => pure true

/-- Instantiate what is not solved for to bounds. A receiver has to be a subtype of the result. -/
def completeArgs (s : Session) (site : Site) (d : Decl) (solved : Substitution) :
    Except Fault (Option Substitution) := do
  match ← s.oracle.instantiateParams d.params solved with
  | .error _ => pure none
  | .ok substitution =>
    let fitsReceiver ←
      if site.isShorthand then pure true
      else s.oracle.isSubtype site.context (d.appliesTo.substitute substitution)
    if fitsReceiver then
      pure (if ← s.respectsBounds solved substitution then some substitution else none)
    else pure none

/-- The type arguments of a declaration. Static members other than constructors do not see the
    parameters of theirs. -/
def inferArgs (s : Session) (site : Site) (d : Decl) (m : Member) :
    Except Fault (Option Substitution) := do
  match site.receiver with
  | .value _ =>
    match ← s.oracle.unify d.appliesTo site.context d.params with
    | some solved => s.completeArgs site d solved
    | none => pure none
  | .shorthand .. =>
    if m.kind = .constructor then do s.completeArgs site d (← s.constructorArgs site d)
    else pure (some .empty)

def placeholders (sig : Signature) : Substitution := .ofList (sig.params.map fun p => (p, .unknown))

def acceptsType (s : Session) (sig : Signature) (substitution : Substitution)
    (source target : Ty) : Except Fault Bool :=
  s.oracle.isAssignable source ((target.substitute substitution).substitute (placeholders sig))

/-- The substitution with the type arguments that are passed to the member. Those of a constructor
    belong to its declaration. -/
def passTypes (d : Decl) (m : Member) (types : Option (List Ty)) (substitution : Substitution) :
    Option Substitution :=
  match types with
  | none => some substitution
  | some types =>
    if m.kind = .constructor then
      if types.length = d.params.length then some substitution else none
    else if types.length = m.sig.params.length then
      some (substitution.insertAll (m.sig.params.zip types))
    else none

def acceptsNamed (s : Session) (sig : Signature) (substitution : Substitution)
    (passed : List String) : List (String × Argument) → Except Fault Bool
  | [] => pure (sig.named.all fun p => !p.required || p.name ∈ passed)
  | (name, arg) :: rest =>
    match sig.named? name with
    | none => pure false
    | some p => do
      if name ∈ passed then pure false
      else if ← s.acceptsType sig substitution arg.type p.type then
        s.acceptsNamed sig substitution (name :: passed) rest
      else pure false

def acceptsArguments (s : Session) (sig : Signature) (substitution : Substitution)
    (a : Arguments) : Except Fault Bool := do
  if a.positional.length < sig.required ∨ sig.positional.length < a.positional.length then
    pure false
  else if ← (a.positional.zip sig.positional).allM fun (arg, target) =>
      s.acceptsType sig substitution arg.type target then
    s.acceptsNamed sig substitution [] a.named
  else pure false

def checkShape (s : Session) (site : Site) (d : Decl) (m : Member) (substitution : Substitution) :
    Except Fault Shape :=
  match site.form with
  | .get => pure (.accepted substitution)
  | .set value => do
    match m.sig.positional with
    | target :: _ =>
      pure (if ← s.acceptsType m.sig substitution value.type target then .accepted substitution
        else .mismatch)
    | [] => pure .mismatch
  | .call a =>
    if m.kind.isGetter then pure .getterCall
    else
      match passTypes d m a.types substitution with
      | none => pure .mismatch
      | some substitution => do
        pure (if ← s.acceptsArguments m.sig substitution a then .accepted substitution
          else .mismatch)

/-- A declaration contributes at most one candidate, for the first member that accepts. -/
def screenMembers (s : Session) (site : Site) (index : DeclId) (d : Decl) :
    List (MemberId × Member) → Except Fault Screening
  | [] => pure {}
  | (i, m) :: rest => do
    match ← s.inferArgs site d m with
    | none => s.screenMembers site index d rest
    | some substitution =>
      match ← s.checkShape site d m substitution with
      | .accepted substitution =>
        let appliesTo := d.appliesTo.substitute substitution
        pure { candidates := [⟨index, i, substitution, appliesTo⟩] }
      | .getterCall => do
        pure (.append { getterCalls := [(index, i)] } (← s.screenMembers site index d rest))
      | .mismatch => do
        pure (.append { shapeMismatches := [(index, i)] } (← s.screenMembers site index d rest))

def screenDecl (s : Session) (site : Site) (index : DeclId) : Except Fault Screening := do
  let d ← s.program.decls.fetch index
  s.screenMembers site index d (d.fittingMembers site)

def screen (s : Session) (site : Site) (decls : List DeclId) : Except Fault Screening := do
  pure (.concat (← decls.mapM (s.screenDecl site)))

end Session

end MemberAccess
