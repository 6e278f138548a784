import MemberAccess.Proofs.Resolution.Contributions

/-!
What a candidate has passed. Its member fits the access by name and kind, the type arguments of its
declaration are inferred, and its signature accepts what is passed once the type arguments that are
passed to the member are known as well.
-/
namespace MemberAccess

variable {s : Session} {site : Site} {ds : List DeclId} {decl : Decl} {m : Member} {i : MemberId}
  {sig : Signature} {a : Arguments} {c : Candidate} {screening : Screening} {σ σ' : Substitution}
  {types : Option (List Ty)} {source target : Ty}

def Form.typeArguments : Form → Option (List Ty)
  | .call a => a.types
  | _ => none

structure Arguments.Shaped (a : Arguments) (sig : Signature) : Prop where
  enough : sig.required ≤ a.positional.length
  notTooMany : a.positional.length ≤ sig.positional.length
  declared : ∀ x ∈ a.named, (sig.named? x.1).isSome
  distinct : (a.named.map (·.1)).Nodup
  required : ∀ p ∈ sig.named, p.required → p.name ∈ a.named.map (·.1)

inductive Arguments.Passes (a : Arguments) (sig : Signature) : (source target : Ty) → Prop where
  | positional {x : Argument × Ty} (h : x ∈ a.positional.zip sig.positional) :
      Passes a sig x.1.type x.2
  | named {x : String × Argument} {p : NamedParam} (h : x ∈ a.named)
      (declared : sig.named? x.1 = some p) : Passes a sig x.2.type p.type

namespace Decl

theorem mem_fittingMembers : (i, m) ∈ decl.fittingMembers site ↔
    decl.members.get? i = some m ∧ m.name = site.name ∧ site.fits m.kind := by
  simp only [fittingMembers, membersNamed, List.mem_filter, Table.mem_toList, decide_eq_true_eq,
    and_assoc]

theorem mem_of_mem_fittingMembers (h : (i, m) ∈ decl.fittingMembers site) :
    decl.members.get? i = some m :=
  (mem_fittingMembers.1 h).1

theorem kind_ne_constructor (isValue : site.isShorthand = false)
    (h : (i, m) ∈ decl.fittingMembers site) : m.kind ≠ .constructor := by
  intro constructor
  have fits := (mem_fittingMembers.1 h).2.2
  simp [Site.fits, constructor, isValue, MemberKind.isStatic] at fits

end Decl

namespace Session

theorem admits_of_screen (h : s.screen site ds = .ok screening)
    (candidate : c ∈ screening.candidates) :
    ∃ decl m σ, s.program.decls.get? c.decl = some decl ∧
      (c.member, m) ∈ decl.fittingMembers site ∧ s.Admits site decl m σ c := by
  simp only [screen, bind_eq_ok, pure_eq_ok] at h
  obtain ⟨parts, hparts, rfl⟩ := h
  rw [Screening.candidates_concat] at candidate
  obtain ⟨part, hpart, candidate⟩ := List.mem_flatMap.1 candidate
  obtain ⟨d, _, screened⟩ := exists_of_mem_mapM hparts hpart
  simp only [screenDecl, bind_eq_ok, Table.fetch_eq_ok] at screened
  obtain ⟨decl, hdecl, screened⟩ := screened
  rcases screenMembers_candidates screened with none | ⟨_, one, rfl, m, σ, fitting, admits⟩
  · simp [none] at candidate
  · rw [one] at candidate
    obtain rfl := List.mem_singleton.1 candidate
    exact ⟨decl, m, σ, hdecl, fitting, admits⟩

theorem passTypes_eq_some (kind : m.kind ≠ .constructor) :
    passTypes decl m types σ = some σ' ↔ types = none ∧ σ' = σ ∨
      ∃ ts, types = some ts ∧ ts.length = m.sig.params.length ∧
        σ' = σ.insertAll (m.sig.params.zip ts) := by
  cases types with
  | none => simp [passTypes, eq_comm]
  | some ts => simp [passTypes, kind, eq_comm]

theorem passTypes_of_accepted (h : s.checkShape site decl m σ = .ok (.accepted σ')) :
    passTypes decl m site.form.typeArguments σ = some σ' := by
  unfold checkShape at h
  cases form : site.form with
  | get =>
    rw [form] at h
    cases h
    rfl
  | set value =>
    rw [form] at h
    cases targets : m.sig.positional with
    | nil =>
      rw [targets] at h
      cases h
    | cons target rest =>
      simp only [targets, bind_eq_ok, pure_eq_ok] at h
      obtain ⟨answer, _, h⟩ := h
      cases answer <;> cases h
      rfl
  | call a =>
    rw [form] at h
    simp only at h
    split at h
    · cases h
    · rw [Form.typeArguments]
      cases passed : passTypes decl m a.types σ with
      | none =>
        rw [passed] at h
        cases h
      | some σ'' =>
        simp only [passed, bind_eq_ok, pure_eq_ok] at h
        obtain ⟨answer, _, h⟩ := h
        cases answer <;> cases h
        rfl

theorem acceptsArguments_of_accepted (isCall : site.form = .call a)
    (h : s.checkShape site decl m σ = .ok (.accepted σ')) :
    s.acceptsArguments m.sig σ' a = .ok true := by
  have passed := passTypes_of_accepted h
  rw [isCall, Form.typeArguments] at passed
  simp only [checkShape, isCall, passed] at h
  split at h
  · cases h
  · obtain ⟨answer, accepts, h⟩ := bind_eq_ok.1 h
    cases answer <;> cases h
    exact accepts

theorem acceptsNamed_eq_true {passed : List String} {args : List (String × Argument)} :
    s.acceptsNamed sig σ passed args = .ok true ↔
      (∀ x ∈ args, ∃ p, sig.named? x.1 = some p ∧
        s.acceptsType sig σ x.2.type p.type = .ok true) ∧
      (∀ x ∈ args, x.1 ∉ passed) ∧ (args.map (·.1)).Nodup ∧
      ∀ p ∈ sig.named, p.required → p.name ∈ passed ∨ p.name ∈ args.map (·.1) := by
  induction args generalizing passed with
  | nil => simp [acceptsNamed, or_iff_not_imp_left]
  | cons x rest ih =>
    obtain ⟨name, arg⟩ := x
    cases declared : sig.named? name with
    | none => simp [acceptsNamed, declared]
    | some p =>
      by_cases again : name ∈ passed
      · simp [acceptsNamed, declared, again]
      · have unused : (∀ x ∈ rest, x.1 ∉ name :: passed) ↔
            name ∉ rest.map (·.1) ∧ ∀ x ∈ rest, x.1 ∉ passed := by
          simp only [List.mem_cons, not_or, forall_and, List.mem_map, not_exists, not_and]
        simp only [acceptsNamed, declared, again, if_false, guard_eq_ok, ih, unused,
          List.forall_mem_cons, Option.some.injEq, exists_eq_left', not_false_eq_true, true_and,
          List.map_cons, List.nodup_cons]
        simp only [List.mem_cons, or_assoc, or_left_comm]
        tauto

theorem acceptsArguments_eq_true : s.acceptsArguments sig σ a = .ok true ↔
    a.Shaped sig ∧ ∀ source target, a.Passes sig source target →
      s.acceptsType sig σ source target = .ok true := by
  unfold acceptsArguments
  split
  · next outside =>
    simp only [pure_eq_ok, Bool.false_eq_true, false_iff]
    intro h
    have enough := h.1.enough
    have notTooMany := h.1.notTooMany
    omega
  · next within =>
    rw [guard_eq_ok, allM_eq_true, acceptsNamed_eq_true]
    constructor
    · intro h
      obtain ⟨positional, named, _, distinct, required⟩ := h
      refine ⟨⟨by omega, by omega, ?_, distinct, fun p hp needed => ?_⟩, ?_⟩
      · intro x hx
        obtain ⟨p, declared, _⟩ := named x hx
        rw [declared]
        rfl
      · exact (required p hp needed).resolve_left List.not_mem_nil
      · intro source target passes
        cases passes with
        | positional member => exact positional _ member
        | named member declared =>
          obtain ⟨p, found, accepts⟩ := named _ member
          rw [declared] at found
          cases found
          exact accepts
    · intro h
      obtain ⟨shaped, accepts⟩ := h
      refine ⟨fun x hx => accepts _ _ (.positional hx), fun x hx => ?_,
        fun _ _ => List.not_mem_nil, shaped.distinct, fun p hp needed => ?_⟩
      · obtain ⟨p, declared⟩ := Option.isSome_iff_exists.1 (shaped.declared x hx)
        exact ⟨p, declared, accepts _ _ (.named hx declared)⟩
      · exact .inr (shaped.required p hp needed)

end Session

end MemberAccess
