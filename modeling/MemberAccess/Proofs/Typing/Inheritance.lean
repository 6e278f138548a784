import MemberAccess.Program.Core
import MemberAccess.Proofs.Typing.Hierarchy

/-!
Single inheritance. If each type declaration has one direct supertype at most, all supertypes of a
type are in a row, so that no two of them are instances of one declaration.
-/
namespace MemberAccess

namespace Program

variable {P : Program} {d : TypeDecl} {rank : TypeId → Nat} {i j k : Instance} {t : Ty}

/-- Whether each type declaration has one direct supertype at most, which has a smaller rank. -/
def Linear (P : Program) (rank : TypeId → Nat) : Prop :=
  ∀ e d, P.types.get? e = some d → d.supers.length ≤ 1 ∧
    (∀ t ∈ d.supers, ∃ i ∈ Instance.ofType? t, rank i.decl < rank e) ∧
    (d.extendsObject e → rank .object < rank e)

instance : Decidable (P.Linear rank) := by unfold Linear; infer_instance

theorem substitute_type {s : Substitution} (h : i.type.substitute s = j.type) :
    i.decl = j.decl := by
  unfold Ty.substitute at h
  split at h <;> exact (Ty.interface.inj h).1

theorem Linear.extends_cases (linear : P.Linear rank) (h : P.Extends i j) :
    ∃ d, P.types.get? i.decl = some d ∧
      ((∃ k : Instance, d.supers = [k.type] ∧ rank k.decl < rank i.decl ∧
          k.type.substitute (d.bindings i.args) = j.type) ∨
        d.supers = [] ∧ rank .object < rank i.decl ∧ j = ⟨.object, []⟩) := by
  obtain ⟨d, hd, hj⟩ := h
  obtain ⟨single, supers, object⟩ := linear _ d hd
  refine ⟨d, hd, ?_⟩
  rcases mem_directSupers.1 hj with ⟨t, ht, substituted⟩ | ⟨root, rfl⟩
  · obtain ⟨k, hk, lower⟩ := supers t ht
    obtain rfl := ofType?_eq_some.1 hk
    obtain ⟨t, same⟩ := List.length_eq_one_iff.1 (le_antisymm single (List.length_pos_of_mem ht))
    rw [same, List.mem_singleton] at ht
    exact .inl ⟨k, ht ▸ same, lower, substituted⟩
  · have none : d.supers = [] := by simp_all [TypeDecl.extendsObject]
    exact .inr ⟨none, object root, rfl⟩

theorem Linear.extends_unique (linear : P.Linear rank) : Relator.RightUnique P.Extends := by
  intro i j k hj hk
  obtain ⟨d, hd, ⟨s, hs, _, first⟩ | ⟨hs, _, rfl⟩⟩ := linear.extends_cases hj <;>
    obtain ⟨d', hd', ⟨t, ht, _, second⟩ | ⟨ht, _, rfl⟩⟩ := linear.extends_cases hk <;>
    obtain rfl : d = d' := Option.some.inj (hd.symm.trans hd')
  · rw [hs, List.singleton_inj] at ht
    rw [ht, second] at first
    cases j; cases k; cases first; rfl
  · simp [hs] at ht
  · simp [hs] at ht
  · rfl

theorem Linear.rank_lt (linear : P.Linear rank) (h : P.Extends i j) :
    rank j.decl < rank i.decl := by
  obtain ⟨d, _, ⟨k, _, lower, substituted⟩ | ⟨_, lower, rfl⟩⟩ := linear.extends_cases h
  · exact substitute_type substituted ▸ lower
  · exact lower

theorem Linear.rank_le (linear : P.Linear rank) (h : P.Reaches i j) :
    rank j.decl ≤ rank i.decl := by
  induction h with
  | refl => exact le_rfl
  | tail _ last ih => exact (linear.rank_lt last).le.trans ih

theorem Linear.acyclic (linear : P.Linear rank) (h : P.Extends i j) : ¬ P.Reaches j i :=
  fun back => absurd (linear.rank_le back) (Nat.not_le_of_lt (linear.rank_lt h))

theorem Linear.unique (linear : P.Linear rank) (hj : P.Reaches i j) (hk : P.Reaches i k)
    (same : j.decl = k.decl) : j = k := by
  have only {j k : Instance} (between : P.Reaches j k) (same : j.decl = k.decl) : j = k := by
    rcases between.cases_head with equal | ⟨l, first, rest⟩
    · exact equal
    · have := (linear.rank_le rest).trans_lt (linear.rank_lt first)
      exact absurd (same ▸ this) (lt_irrefl _)
  rcases Relation.ReflTransGen.total_of_right_unique linear.extends_unique hj hk with h | h
  · exact only h same
  · exact (only h same.symm).symm

theorem template_iff : P.Template d i ↔ P.Valid i.type ∧ i.type.Clear false ∧
    (i.type.EveryAt false fun part => ∀ p ∈ part.param?, p ∉ d.params) ∧
    (i.type.Every fun part => part.isPromoted → ∀ p ∈ part.param?, p ∈ d.params) ∧
    i.decl ≠ .null := by
  constructor
  · rintro ⟨valid, clear, covariant, promoted, notNull⟩
    exact ⟨valid, clear, covariant, promoted, notNull⟩
  · rintro ⟨valid, clear, covariant, promoted, notNull⟩
    exact ⟨valid, clear, covariant, promoted, notNull⟩

instance : Decidable (P.Template d i) := decidable_of_iff _ template_iff.symm

theorem Linear.coherent (linear : P.Linear rank)
    (object : ∃ d, P.types.get? TypeId.object = some d ∧ d.params = [] ∧ d.supers = [])
    (null : ∃ d, P.types.get? TypeId.null = some d ∧ d.params = [] ∧ d.supers = [])
    (future : ∃ d, P.types.get? TypeId.future = some d ∧ d.params.length = 1 ∧ d.supers = [] ∧
      d.kind ≠ .viewKind)
    (templates : ∀ e d, P.types.get? e = some d →
      ∀ t ∈ d.supers, ∀ i ∈ Instance.ofType? t, P.Template d i)
    (bounds : ∀ p q, P.params.get? p = some q →
      ∀ bound ∈ q.bound, P.Valid bound ∧ bound.Clear false) : P.Coherent where
  object := object
  null := null
  future := future
  supers e d hd i hi := templates e d hd _ hi i rfl
  bounds p q bound hq hbound := bounds p q hq bound hbound
  unique _ _ _ _ := linear.unique

theorem coherent_core : core.Coherent := by
  have linear : core.Linear fun e => [0, 0, 1, 1, 2, 3, 3, 2, 1, 1, 2].getD e.val 0 := by decide
  exact linear.coherent ⟨_, rfl, rfl, rfl⟩ ⟨_, rfl, rfl, rfl⟩ ⟨_, rfl, rfl, rfl, by decide⟩
    (by decide) (by decide)

end Program

end MemberAccess
