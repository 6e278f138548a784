import MemberAccess.Proofs.Range.WellFormed
import MemberAccess.Resolution.Explanation

/-!
Texts of types and declarations. What is in range can be quoted, in diagnostics as well as in the
results that are reported while tracing.
-/
namespace MemberAccess.Program

variable {P : Program} {t : Ty} {ts : List Ty} {d : DeclId} {e : TypeId} {p : ParamId}
  {ref : MemberRef} {s : Substitution} {f : Failure}

def RefInRange (P : Program) (ref : MemberRef) : Prop :=
  ∃ decl, P.decls.get? ref.1 = some decl ∧ (decl.members.get? ref.2).isSome

theorem RefInRange.decl (h : P.RefInRange ref) : (P.decls.get? ref.1).isSome := by
  obtain ⟨decl, hd, _⟩ := h
  simp [hd]

def FailureInRange (P : Program) : Failure → Prop
  | .noMatch .. => True
  | .ambiguous _ _ refs => ∀ ref ∈ refs, P.RefInRange ref
  | .getterInvoked _ _ d => (P.decls.get? d).isSome

theorem showParam_answered (h : (P.params.get? p).isSome) : ∃ text, P.showParam p = .ok text := by
  obtain ⟨q, hq⟩ := Option.isSome_iff_exists.1 h
  exact ⟨q.name, by simp [showParam, Table.fetch_eq_ok.2 hq]⟩

theorem showTypeName_answered (h : (P.types.get? e).isSome) :
    ∃ text, P.showTypeName e = .ok text := by
  obtain ⟨decl, hd⟩ := Option.isSome_iff_exists.1 h
  exact ⟨decl.name, by simp [showTypeName, Table.fetch_eq_ok.2 hd]⟩

theorem showTypes_answered (h : ∀ t ∈ ts, ∃ text, P.showType t = .ok text) :
    ∃ texts, P.showTypes ts = .ok texts := by
  induction ts with
  | nil => exact ⟨[], rfl⟩
  | cons t ts ih =>
    obtain ⟨⟨text, htext⟩, rest⟩ := List.forall_mem_cons.1 h
    obtain ⟨texts, htexts⟩ := ih rest
    exact ⟨text :: texts, by simp [showTypes, htext, htexts]⟩

theorem showType_answered (h : P.InRange t) : ∃ text, P.showType t = .ok text := by
  induction t using Ty.induct with
  | unknown | dynamic | void | never => exact ⟨_, rfl⟩
  | interface d as ih =>
    obtain ⟨head, args⟩ := Ty.every_interface.1 h
    obtain ⟨name, hname⟩ := showTypeName_answered head
    obtain ⟨texts, htexts⟩ := showTypes_answered fun a ha => ih a ha (args a ha)
    exact ⟨_, by rw [showType, hname, htexts]; rfl⟩
  | nullable t ih =>
    obtain ⟨text, htext⟩ := ih (Ty.every_nullable.1 h).2
    exact ⟨_, by rw [showType, htext]; rfl⟩
  | futureOr t ih =>
    obtain ⟨text, htext⟩ := ih (Ty.every_futureOr.1 h).2
    exact ⟨_, by rw [showType, htext]; rfl⟩
  | param p => exact showParam_answered h.self
  | promoted p bound ih =>
    obtain ⟨head, inRange⟩ := Ty.every_promoted.1 h
    obtain ⟨name, hname⟩ := showParam_answered head
    obtain ⟨text, htext⟩ := ih inRange
    exact ⟨_, by rw [showType, hname, htext]; rfl⟩
  | func ps r ihParams ihResult =>
    obtain ⟨_, params, result⟩ := Ty.every_func.1 h
    obtain ⟨texts, htexts⟩ := showTypes_answered fun a ha => ihParams a ha (params a ha)
    obtain ⟨text, htext⟩ := ihResult result
    exact ⟨_, by rw [showType, htext, htexts]; rfl⟩
  | record fs ih =>
    obtain ⟨_, fields⟩ := Ty.every_record.1 h
    obtain ⟨texts, htexts⟩ := showTypes_answered fun f hf => ih f hf (fields f hf)
    exact ⟨_, by rw [showType, htexts]; rfl⟩

theorem showSubstitution_answered (h : s.Every (P.headInRange ·)) :
    ∃ text, P.showSubstitution s = .ok text := by
  have entries : ∀ e ∈ s.entries, ∃ text, (do
      pure ((← P.showParam e.1) ++ " = " ++ (← P.showType e.2)) : Except Fault String) =
        .ok text := by
    intro e he
    obtain ⟨name, hname⟩ := showParam_answered (h e he).1
    obtain ⟨text, htext⟩ := showType_answered (h e he).2
    exact ⟨_, by rw [hname, htext]; rfl⟩
  obtain ⟨texts, htexts⟩ := exists_mapM_eq_ok entries
  exact ⟨_, by rw [showSubstitution, htexts]; rfl⟩

namespace WellFormed

variable (wf : P.WellFormed)

include wf

theorem showBoundedParams_answered {ps : List ParamId}
    (h : ∀ p ∈ ps, (P.params.get? p).isSome) : ∃ text, P.showBoundedParams ps = .ok text := by
  have params : ∀ p ∈ ps, ∃ text, P.showBoundedParam p = .ok text := by
    intro p hp
    obtain ⟨q, hq⟩ := Option.isSome_iff_exists.1 (h p hp)
    unfold showBoundedParam
    rw [Table.fetch_eq_ok.2 hq, ok_bind]
    cases hbound : q.bound with
    | none => exact ⟨_, rfl⟩
    | some bound =>
      obtain ⟨text, htext⟩ := showType_answered (wf.bounds p q hq bound hbound)
      exact ⟨_, by simp only [htext]; rfl⟩
  obtain ⟨texts, htexts⟩ := exists_mapM_eq_ok params
  exact ⟨_, by rw [showBoundedParams, htexts]; rfl⟩

theorem showDecl_answered (h : (P.decls.get? d).isSome) : ∃ text, P.showDecl d = .ok text := by
  obtain ⟨decl, hd⟩ := Option.isSome_iff_exists.1 h
  have inRange := wf.decls d decl hd
  have body := inRange.body
  obtain ⟨params, hparams⟩ := wf.showBoundedParams_answered inRange.params
  unfold showDecl
  rw [Table.fetch_eq_ok.2 hd, ok_bind, hparams]
  cases shape : decl.body with
  | extension receiver =>
    rw [shape] at body
    obtain ⟨text, htext⟩ := showType_answered body
    exact ⟨_, by simp only [htext]; rfl⟩
  | view type representation exposure =>
    rw [shape] at body
    obtain ⟨name, hname⟩ := showTypeName_answered body.1
    obtain ⟨text, htext⟩ := showType_answered body.2
    exact ⟨_, by simp only [hname, htext]; rfl⟩
  | shorthand target =>
    rw [shape] at body
    obtain ⟨type, htype⟩ := Option.isSome_iff_exists.1 body
    exact ⟨_, by simp only [Table.fetch_eq_ok.2 htype]; rfl⟩

theorem quoteDecl_answered (h : (P.decls.get? d).isSome) : ∃ text, P.quoteDecl d = .ok text := by
  obtain ⟨text, htext⟩ := wf.showDecl_answered h
  exact ⟨_, by rw [quoteDecl, htext]; rfl⟩

theorem quoteMember_answered (h : P.RefInRange ref) : ∃ text, P.quoteMember ref = .ok text := by
  obtain ⟨d, m⟩ := ref
  obtain ⟨header, hheader⟩ := wf.showDecl_answered h.decl
  obtain ⟨decl, hd, hm⟩ := h
  obtain ⟨member, hm⟩ := Option.isSome_iff_exists.1 hm
  suffices ∃ text, P.showMember d m = .ok text by
    obtain ⟨text, htext⟩ := this
    exact ⟨_, by rw [quoteMember, htext]; rfl⟩
  unfold showMember
  rw [Table.fetch_eq_ok.2 hd, ok_bind, Table.fetch_eq_ok.2 hm, ok_bind, hheader]
  cases decl.binder <;> by_cases plain : member.kind = .constructor ∧ member.name = "new" <;>
    exact ⟨_, by simp [plain]; rfl⟩

theorem explain_answered (h : P.FailureInRange f) : ∃ diagnostic, P.explain f = .ok diagnostic := by
  cases f with
  | noMatch site name reason => exact ⟨_, rfl⟩
  | ambiguous site name refs =>
    obtain ⟨members, hmembers⟩ := exists_mapM_eq_ok fun ref hr => wf.quoteMember_answered (h ref hr)
    have located : ∀ ref ∈ refs, ∃ span, P.memberSpan ref = .ok span := by
      intro ref hr
      obtain ⟨decl, hd, hm⟩ := h ref hr
      obtain ⟨member, hm⟩ := Option.isSome_iff_exists.1 hm
      exact ⟨member.span, by simp [memberSpan, Table.fetch_eq_ok.2 hd, Table.fetch_eq_ok.2 hm]⟩
    obtain ⟨spans, hspans⟩ := exists_mapM_eq_ok located
    exact ⟨_, by rw [explain, hmembers, hspans]; rfl⟩
  | getterInvoked site name d =>
    obtain ⟨header, hheader⟩ := wf.quoteDecl_answered h
    exact ⟨_, by rw [explain, hheader]; rfl⟩

end WellFormed

end MemberAccess.Program
