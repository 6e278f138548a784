import MemberAccess.Program.Core
import MemberAccess.Proofs.Instantiation.Breaking
import MemberAccess.Proofs.Resolution.Candidates
import MemberAccess.Visibility

/-!
The arguments of calls. They are checked against the signature of the member with the type
arguments put in first, and the placeholders for all parameters of the member after that. So they
fit the signature for sure only if the type arguments do not mention these parameters themselves.
-/
namespace MemberAccess

open Program

variable {s : Session} {site : Site} {ds : List DeclId} {decl : Decl} {m : Member}
  {sig : Signature} {a : Arguments} {ps : List ParamId} {p : ParamId} {σ σ' : Substitution} {t : Ty}

/-- Whether a substitution does not put any of the parameters into a type, nor question marks that
    say nothing. -/
def Substitution.Spares (σ : Substitution) (ps : List ParamId) : Prop :=
  ∀ p t, σ.get? p = some t → t.Free ps ∧ t.InNormalForm

theorem Substitution.spares_iff :
    σ.Spares ps ↔ ∀ e ∈ σ.entries, e.2.Free ps ∧ e.2.InNormalForm := by
  simp only [Spares, get?_eq_some, Prod.forall]

instance : Decidable (σ.Spares ps) := decidable_of_iff' _ Substitution.spares_iff

namespace Session

theorem get?_placeholders :
    (placeholders sig).get? p = if p ∈ sig.params then some .unknown else none :=
  Substitution.get?_ofList_map

theorem substitute_no_placeholders (none : sig.params = []) :
    t.substitute (placeholders sig) = t := by
  rw [placeholders, none]
  rfl

theorem substitute_placeholders (known : ∀ p ∈ sig.params, (σ.get? p).isSome)
    (spares : σ.Spares sig.params) :
    (t.substitute σ).substitute (placeholders sig) = t.substitute σ := by
  cases params : sig.params with
  | nil => exact substitute_no_placeholders params
  | cons p ps =>
    obtain ⟨u, value⟩ := Option.isSome_iff_exists.1 (known p (by simp [params]))
    have replaced : t.substitute σ = t.replace σ.get? := Ty.substitute_of_mem value
    have normal : (t.replace σ.get?).InNormalForm :=
      Ty.inNormalForm_replace fun q u value => (spares q u value).2
    have free : (t.replace σ.get?).Free sig.params := by
      refine Ty.free_iff.2 fun q hq own => ?_
      rcases Ty.mem_params_replace hq with ⟨_, absent⟩ | ⟨p, _, u, value, inside⟩
      · have present := known q own
        rw [absent] at present
        cases present
      · exact Ty.free_iff.1 (spares p u value).1 q inside own
    rw [replaced, normal.substitute_eq]
    refine normal.replace_of_free free fun q outside => ?_
    rw [get?_placeholders, if_neg outside]

/-- What a call passes to a candidate is accepted with placeholders for all parameters of the
    member. It fits the signature under the type arguments of the candidate if the member is not
    generic, or if type arguments are passed to it and none of the types that the substitution puts
    in mentions the parameters of the member. -/
theorem screen_call_fits (s : Session) (site : Site) (a : Arguments) (ds : List DeclId)
    (screening : Screening) (isCall : site.form = .call a)
    (screened : s.screen site ds = .ok screening) :
    ∀ c ∈ screening.candidates, ∃ decl m, s.program.decls.get? c.decl = some decl ∧
      decl.members.get? c.member = some m ∧
      a.Shaped m.sig ∧
      (∀ source target, a.Passes m.sig source target → s.oracle.isAssignable source
        ((target.substitute c.substitution).substitute (placeholders m.sig)) = .ok true) ∧
      (m.sig.params = [] ∨
          m.kind ≠ .constructor ∧ a.types.isSome ∧ c.substitution.Spares m.sig.params →
        ∀ source target, a.Passes m.sig source target →
          s.oracle.isAssignable source (target.substitute c.substitution) = .ok true) := by
  intro c candidate
  obtain ⟨decl, m, σ, hdecl, fitting, admits⟩ := admits_of_screen screened candidate
  obtain ⟨shaped, held⟩ :=
    acceptsArguments_eq_true.1 (acceptsArguments_of_accepted isCall admits.accepts)
  refine ⟨decl, m, hdecl, Decl.mem_of_mem_fittingMembers fitting, shaped, held, ?_⟩
  intro uncaptured source target passes
  have bare : (target.substitute c.substitution).substitute (placeholders m.sig) =
      target.substitute c.substitution := by
    rcases uncaptured with none | ⟨kind, explicit, spares⟩
    · exact substitute_no_placeholders none
    · refine substitute_placeholders ?_ spares
      have passed := passTypes_of_accepted admits.accepts
      rw [isCall, Form.typeArguments] at passed
      rcases (passTypes_eq_some kind).1 passed with ⟨none, _⟩ | ⟨ts, _, arity, same⟩
      · rw [none] at explicit
        cases explicit
      · rw [same]
        exact fun p own => (Substitution.isSome_get?_insertAll_zip arity).2 (.inl own)
  rw [← bare]
  exact held source target passes

end Session

namespace Program

def genericMethod : Program :=
  let foo : Member :=
    { name := "foo", kind := .method, sig :=
      { params := [⟨5⟩], positional := [.param ⟨5⟩], required := 1,
        named := [⟨"other", .param ⟨5⟩, false⟩] } }
  let extension : Decl :=
    { binder := some "E", params := [⟨4⟩], library := .core, body := .extension (.param ⟨4⟩),
      members := .ofList [foo] }
  { core with
    params := .ofList (core.params.entries.toList ++ [⟨"T", none⟩, ⟨"R", none⟩])
    decls := .ofList [extension] }

/-- A call with a type argument that has nothing to do with the method, and one in the body of the
    method that passes its own parameter on. The latter accepts any argument. -/
theorem genericMethod_calls :
    let s := genericMethod.session {}
    let int : Ty := .interface ⟨5⟩ []
    let string : Ty := .interface ⟨7⟩ []
    let call (type passed : Ty) : Arguments :=
      { types := some [type], positional := [{ type := passed }],
        named := [("other", { type := passed })] }
    let site (type passed : Ty) : Site :=
      { name := "foo", receiver := .value int, form := .call (call type passed), library := .core }
    let given (type : Ty) : Substitution := .ofList [(⟨4⟩, int), (⟨5⟩, type)]
    let accepted (type passed : Ty) : Prop :=
      s.screen (site type passed) [⟨0⟩] = .ok { candidates := [⟨⟨0⟩, ⟨0⟩, given type, int⟩] }
    (accepted int int ∧ (given int).Spares [⟨5⟩] ∧
      s.oracle.isAssignable int ((Ty.param ⟨5⟩).substitute (given int)) = .ok true) ∧
    accepted (.param ⟨5⟩) string ∧ ¬ (given (.param ⟨5⟩)).Spares [⟨5⟩] ∧
      s.oracle.isAssignable string ((Ty.param ⟨5⟩).substitute (given (.param ⟨5⟩))) =
        .ok false := by
  intro s int string call site given accepted
  have screened : accepted int int := by unfold accepted; decide +kernel
  have spares : (given int).Spares [⟨5⟩] := by decide
  let passed : Argument × Ty := ({ type := int }, .param ⟨5⟩)
  obtain ⟨decl, m, hdecl, hm, _, _, fits⟩ := Session.screen_call_fits s (site int int) _ _ _ rfl
    screened _ (List.mem_singleton_self _)
  cases hdecl
  cases hm
  refine ⟨⟨screened, spares, ?_⟩, ?_, by decide, by decide +kernel⟩
  · exact fits (.inr ⟨by decide, rfl, spares⟩) int (.param ⟨5⟩)
      (.positional (x := passed) (List.mem_singleton_self _))
  · unfold accepted
    decide +kernel

end Program

end MemberAccess
