import MemberAccess.Proofs.Instantiation.Composition

/-!
Composed substitutions. To substitute one after the other comes to the same as to substitute their
composition, and composition is associative. The empty substitution is neutral, although it leaves
question marks alone that every other one drops.
-/
namespace MemberAccess

variable {s r q : Substitution} {p : ParamId} {t : Ty}

namespace Substitution

theorem eq_empty (h : s.isEmpty = true) : s = empty :=
  ext_get? fun p => isEmpty_iff.1 h p

theorem get?_compose :
    (s.compose r).get? p = (s.get? p).elim (r.get? p) fun u => some (u.substitute r) := by
  unfold compose
  cases first : s.get? p with
  | some u =>
    have absent : ∀ e ∈ r.entries.filter fun e => !s.contains e.1, e.1 ≠ p := by
      rintro e member rfl
      simp [contains, first] at member
    rw [get?_insertAll_of_absent absent, get?_mapTypes, first]
    rfl
  | none =>
    rw [Option.elim_none]
    cases second : r.get? p with
    | some t =>
      refine get?_insertAll_of_sorted (r.sorted.filter _) (List.mem_filter.2 ⟨?_, ?_⟩)
      · exact get?_eq_some.1 second
      · simp [contains, first]
    | none =>
      have absent : ∀ e ∈ r.entries.filter fun e => !s.contains e.1, e.1 ≠ p := by
        rintro e member rfl
        have value : r.get? e.1 = some e.2 := get?_eq_some.2 (List.mem_filter.1 member).1
        rw [second] at value
        cases value
      rw [get?_insertAll_of_absent absent, get?_mapTypes, first]
      rfl

theorem empty_compose : empty.compose r = r := ext_get? fun _ => get?_compose

theorem compose_empty : s.compose empty = s := by
  apply ext_get?
  intro p
  rw [get?_compose]
  cases s.get? p <;> rfl

theorem isEmpty_compose (h : s.isEmpty = false) : (s.compose r).isEmpty = false := by
  rw [Bool.eq_false_iff] at h ⊢
  intro empty
  refine h (isEmpty_iff.2 fun p => ?_)
  have absent := isEmpty_iff.1 empty p
  rw [get?_compose] at absent
  cases value : s.get? p with
  | none => rfl
  | some u =>
    rw [value] at absent
    cases absent

end Substitution

namespace Ty

theorem substitute_eq_replace (h : s.isEmpty = false) : t.substitute s = t.replace s.get? := by
  rw [substitute, h]
  rfl

/-- Only if neither of the two substitutions is empty, question marks are dropped on both sides. -/
theorem substitute_substitute (t : Ty) (s r : Substitution) :
    (t.substitute s).substitute r = t.substitute (s.compose r) := by
  cases hs : s.isEmpty with
  | true =>
    rw [Substitution.eq_empty hs, Substitution.empty_compose]
    rfl
  | false =>
    cases hr : r.isEmpty with
    | true =>
      rw [Substitution.eq_empty hr, Substitution.compose_empty]
      rfl
    | false =>
      have composed : (s.compose r).get? = followedBy s.get? r.get? := by
        funext p
        rw [Substitution.get?_compose, followedBy]
        simp only [substitute_eq_replace hr]
      rw [substitute_eq_replace hs, substitute_eq_replace hr, replace_replace,
        substitute_eq_replace (Substitution.isEmpty_compose hs), composed]

end Ty

namespace Substitution

theorem compose_assoc (s r q : Substitution) :
    (s.compose r).compose q = s.compose (r.compose q) := by
  apply ext_get?
  intro p
  simp only [get?_compose]
  cases s.get? p with
  | none => rfl
  | some u => exact congrArg some (u.substitute_substitute r q)

/-- Composition is application one after the other, to all types, whether they are in normal form or
    not. Substitutions are a monoid that acts on types. -/
theorem composition_sequential :
    (∀ (t : Ty) (s r : Substitution), (t.substitute s).substitute r = t.substitute (s.compose r)) ∧
    (∀ s r q : Substitution, (s.compose r).compose q = s.compose (r.compose q)) ∧
    ∀ s : Substitution, empty.compose s = s ∧ s.compose empty = s :=
  ⟨Ty.substitute_substitute, compose_assoc, fun _ => ⟨empty_compose, compose_empty⟩⟩

example :
    let t : Ty := .nullable (.nullable (.promoted ⟨4⟩ (.param ⟨5⟩)))
    let s := ofList [(⟨4⟩, .param ⟨5⟩)]
    let r := ofList [(⟨5⟩, .nullable .null)]
    t.substitute (s.compose r) = .nullable .null := by decide

end Substitution

end MemberAccess
