import MemberAccess.Program.Core
import MemberAccess.Proofs.Instantiation.Equations
import MemberAccess.Proofs.Matching.Solutions
import MemberAccess.Proofs.Renaming.Inference
import MemberAccess.Proofs.Resolution.Candidates

/-!
The type arguments of candidates. Those of the declaration are checked before those that a call
passes to the member are known. The checks stay valid if the parameters of the member have nothing
to do with what has been checked.
-/
namespace MemberAccess

open Program

variable {P : Program} {options : Options} {site : Site} {decl : Decl} {m : Member}
  {types : Option (List Ty)} {p : ParamId} {σ σ' : Substitution} {t : Ty}

/-- Whether the parameters of a member are different from those of its declaration, and occur
    neither in the type that the declaration applies to, which is in normal form, nor in the bounds
    of its parameters. -/
structure Program.Separates (P : Program) (decl : Decl) (m : Member) : Prop where
  own : ∀ p ∈ m.sig.params, p ∉ decl.params
  normal : decl.appliesTo.InNormalForm
  appliesTo : decl.appliesTo.Free m.sig.params
  bounds : ∀ p ∈ decl.params, ∀ q ∈ P.params.get? p, ∀ b ∈ q.bound, b.Free m.sig.params

namespace Session

section Passing

variable (kind : m.kind ≠ .constructor) (passed : passTypes decl m types σ = some σ')

include kind passed

theorem get?_passTypes (outside : p ∉ m.sig.params) : σ'.get? p = σ.get? p := by
  rcases (passTypes_eq_some kind).1 passed with ⟨_, rfl⟩ | ⟨ts, _, _, rfl⟩
  · rfl
  · apply Substitution.get?_insertAll_of_absent
    intro e he same
    exact outside (same ▸ (List.of_mem_zip he).1)

theorem hasDomain_passTypes (domain : σ.HasDomain decl.params) :
    σ'.HasDomain (decl.params ++ if types.isSome then m.sig.params else []) := by
  intro p
  rcases (passTypes_eq_some kind).1 passed with ⟨rfl, rfl⟩ | ⟨ts, rfl, arity, rfl⟩
  · simpa using domain p
  · rw [Substitution.isSome_get?_insertAll_zip arity, domain p, or_comm]
    simp

end Passing

/-- A candidate for an access to a value has types for just the parameters of the declaration, and
    for those of the member if the call passes any. The type of the value is a subtype of the one
    that the declaration applies to. What has been solved for is kept and respects the bounds, and
    the rest comes from instantiation to bounds. -/
theorem screen_value_sound (P : Program) (options : Options) (site : Site) (t : Ty)
    (ds : List DeclId) (screening : Screening) (isValue : site.receiver = .value t)
    (screened : (P.session options).screen site ds = .ok screening) :
    ∀ c ∈ screening.candidates, ∃ decl m, P.decls.get? c.decl = some decl ∧
      decl.members.get? c.member = some m ∧ (P.Separates decl m →
        c.substitution.HasDomain
          (decl.params ++ if site.form.typeArguments.isSome then m.sig.params else []) ∧
        c.appliesTo = decl.appliesTo.substitute c.substitution ∧
        P.isSubtype options.limit t c.appliesTo = .ok true ∧
        ∃ solved S, P.unify options.limit decl.appliesTo t decl.params = .ok (some solved) ∧
          P.instantiateParams options.limit decl.params solved = .ok (.ok S) ∧
          (∀ p u, solved.get? p = some u →
            p ∈ decl.params ∧ c.substitution.get? p = some u ∧
            ∃ q, P.params.get? p = some q ∧ ∀ b ∈ q.bound,
              P.isSubtype options.limit u (b.substitute c.substitution) = .ok true) ∧
          ∀ p ∈ decl.params, c.substitution.get? p = S.get? p) := by
  intro c candidate
  obtain ⟨decl, m, σ, hdecl, fitting, admits⟩ := admits_of_screen screened candidate
  refine ⟨decl, m, hdecl, Decl.mem_of_mem_fittingMembers fitting, fun separates => ?_⟩
  have noShorthand : site.isShorthand = false := by rw [Site.isShorthand, isValue]
  have kind : m.kind ≠ .constructor := Decl.kind_ne_constructor noShorthand fitting
  have passed : passTypes decl m site.form.typeArguments σ = some c.substitution :=
    passTypes_of_accepted admits.accepts
  obtain ⟨solved, unified, completed⟩ := (inferArgs_eq_some isValue).1 admits.infers
  obtain ⟨instantiated, fits, respected⟩ := (completeArgs_eq_some isValue).1 completed
  obtain ⟨domain, keeps⟩ := instantiateParams_covers instantiated
  -- the type arguments of the member change nothing about the types that were checked before
  have same (q : ParamId) (outside : q ∉ m.sig.params) : c.substitution.get? q = σ.get? q :=
    get?_passTypes kind passed outside
  have own (q : ParamId) (hq : q ∈ decl.params) : c.substitution.get? q = σ.get? q :=
    same q fun among => separates.own q among hq
  have applied : c.appliesTo = decl.appliesTo.substitute σ := by
    rw [admits.applies]
    exact separates.normal.substitute_congr fun q hq =>
      same q (Ty.free_iff.1 separates.appliesTo q hq)
  refine ⟨hasDomain_passTypes kind passed domain, admits.applies, applied ▸ fits, solved, σ,
    unified, instantiated, ?_, own⟩
  intro p u value
  have hp : p ∈ decl.params := mem_of_solved unified value
  have kept : σ.get? p = some u := keeps p hp u value
  obtain ⟨q, hq, below⟩ := respectsBounds_eq_true.1 respected p u value
  refine ⟨hp, (own p hp).trans kept, q, hq, fun b hb => ?_⟩
  have free : b.Free m.sig.params := separates.bounds p hp q hq b hb
  have bound : b.substitute c.substitution = b.substitute σ := by
    rw [Ty.substitute_of_mem ((own p hp).trans kept), Ty.substitute_of_mem kept]
    exact Ty.replace_congr fun q hq => same q (Ty.free_iff.1 free q hq)
  rw [bound]
  exact below b hb

end Session

namespace Program

def pickMethod : Member :=
  { name := "pick", kind := .method,
    sig := { params := [⟨6⟩], positional := [.param ⟨6⟩], required := 1 } }

def numberLists : Decl :=
  { binder := some "Numbers", params := [⟨4⟩, ⟨5⟩], library := .core,
    body := .extension (.interface ⟨10⟩ [.param ⟨4⟩]), members := .ofList [pickMethod] }

def numberExtension : Program :=
  { core with
    params := .ofList (core.params.entries.toList ++
      [⟨"T", some (.interface ⟨4⟩ [])⟩, ⟨"S", some (.interface ⟨10⟩ [.param ⟨4⟩])⟩, ⟨"U", none⟩])
    decls := .ofList [numberLists] }

/-- `T` is solved for, `S` is instantiated to its bound, and `U` is passed. -/
theorem numberExtension_pick :
    let s := numberExtension.session {}
    let int : Ty := .interface ⟨5⟩ []
    let string : Ty := .interface ⟨7⟩ []
    let list (t : Ty) : Ty := .interface ⟨10⟩ [t]
    let site : Site :=
      { name := "pick", receiver := .value (list int), library := .core,
        form := .call { types := some [string], positional := [{ type := string }] } }
    let σ : Substitution := .ofList [(⟨4⟩, int), (⟨5⟩, list int), (⟨6⟩, string)]
    s.screen site [⟨0⟩] = .ok { candidates := [⟨⟨0⟩, ⟨0⟩, σ, list int⟩] } ∧
      numberExtension.Separates numberLists pickMethod ∧ σ.HasDomain [⟨4⟩, ⟨5⟩, ⟨6⟩] ∧
      ∃ solved S, numberExtension.unify 64 (list (.param ⟨4⟩)) (list int) [⟨4⟩, ⟨5⟩] =
          .ok (some solved) ∧
        numberExtension.instantiateParams 64 [⟨4⟩, ⟨5⟩] solved = .ok (.ok S) ∧
        ∀ p ∈ [(⟨4⟩ : ParamId), ⟨5⟩], σ.get? p = S.get? p := by
  intro s int string list site σ
  have screened : s.screen site [⟨0⟩] = .ok { candidates := [⟨⟨0⟩, ⟨0⟩, σ, list int⟩] } := by
    decide +kernel
  have separates : numberExtension.Separates numberLists pickMethod :=
    ⟨by decide, by decide, by decide, by decide⟩
  obtain ⟨decl, m, hdecl, hm, sound⟩ := Session.screen_value_sound numberExtension {} site
    (list int) _ _ rfl screened _ (List.mem_singleton_self _)
  cases hdecl
  cases hm
  obtain ⟨domain, _, _, solved, S, unified, instantiated, _, same⟩ := sound separates
  exact ⟨screened, separates, domain, solved, S, unified, instantiated, same⟩

end Program

end MemberAccess
