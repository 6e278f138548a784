import MemberAccess.Proofs.Instantiation.Placeholders

/-!
What a substitution can change. A parameter that is left either is a parameter of the type that is
not mapped, or it comes with the type that is put in for one that is. What is mapped besides has no
effect. The parameters of the bound of a promotion count even where the promotion goes with its
parameter, so a type can lose more parameters than those that are mapped, but never gain others.
-/
namespace MemberAccess

variable {t : Ty} {s r : Substitution} {p q : ParamId}

namespace Ty

theorem params_eq_nil : t.params = [] ↔ t.Every fun part => part.param? = none := by
  simp only [List.eq_nil_iff_forall_not_mem, Option.eq_none_iff_forall_not_mem]
  exact forall_mem_params (φ := fun _ => False)

theorem isClosed_iff : t.isClosed = true ↔ t.params = [] ∧ t.Known := by
  rw [params_eq_nil, isClosed, List.all_eq_true, Known, Every, Every, ← forall₂_and]
  simp only [decide_eq_true_eq]

/-- The empty substitution leaves the parameters that any substitution would leave which does not
    map them. -/
theorem mem_params_substitute (h : q ∈ (t.substitute s).params) :
    q ∈ t.params ∧ s.get? q = none ∨ ∃ p ∈ t.params, ∃ u, s.get? p = some u ∧ q ∈ u.params := by
  unfold substitute at h
  split at h
  · next empty => exact .inl ⟨h, Substitution.isEmpty_iff.1 empty q⟩
  · exact mem_params_replace h

theorem isClosed_substitute (covers : ∀ p ∈ t.params, s.contains p = true)
    (closed : s.isClosed = true) (known : t.hasUnknown = false) :
    (t.substitute s).isClosed = true := by
  have value (p : ParamId) (u : Ty) (h : s.get? p = some u) : u.params = [] ∧ u.Known := by
    refine isClosed_iff.1 (List.all_eq_true.1 closed u ?_)
    exact List.mem_map_of_mem (Substitution.get?_eq_some.1 h)
  refine isClosed_iff.2 ⟨List.eq_nil_iff_forall_not_mem.2 fun q left => ?_,
    (hasUnknown_eq_false.1 known).substitute fun p u h => (value p u h).2⟩
  rcases mem_params_substitute left with ⟨own, unmapped⟩ | ⟨p, _, u, mapped, inner⟩
  · have := covers q own
    rw [Substitution.contains, unmapped] at this
    cases this
  · rw [(value p u mapped).1] at inner
    cases inner

end Ty

namespace Substitution

/-- Substitution is local: what is left of a type depends on what is put in for its own parameters
    only. If all of them become closed types, the result is closed; and where two substitutions
    agree on them, the results are equal, even if one of the two is empty. -/
theorem substitution_local :
    (∀ (t : Ty) (s : Substitution), ∀ q ∈ (t.substitute s).params,
      q ∈ t.params ∧ s.contains q = false ∨
        ∃ p ∈ t.params, ∃ u, s.get? p = some u ∧ q ∈ u.params) ∧
    (∀ (t : Ty) (s : Substitution), (∀ p ∈ t.params, s.contains p = true) → s.isClosed = true →
      t.hasUnknown = false → (t.substitute s).isClosed = true) ∧
    ∀ t : Ty, t.InNormalForm → ∀ s r : Substitution, (∀ p ∈ t.params, s.get? p = r.get? p) →
      t.substitute s = t.substitute r := by
  refine ⟨fun t s q left => ?_, fun t s => Ty.isClosed_substitute,
    fun t normal s r => normal.substitute_congr⟩
  refine (Ty.mem_params_substitute left).imp_left (And.imp_right fun unmapped => ?_)
  rw [contains, unmapped]
  rfl

theorem promotedPair_local :
    let t : Ty := .record [.promoted ⟨4⟩ (.param ⟨5⟩), .nullable (.param ⟨6⟩)]
    let s := ofList [(⟨4⟩, .interface ⟨10⟩ [.param ⟨7⟩]), (⟨9⟩, .param ⟨8⟩)]
    let closing := ofList [(⟨4⟩, .dynamic), (⟨5⟩, .void), (⟨6⟩, .null)]
    (t.substitute s).params = [⟨7⟩, ⟨6⟩] ∧ (t.substitute closing).isClosed = true ∧
      t.substitute (ofList [(⟨8⟩, .void)]) = t.substitute empty := by
  intro t s closing
  obtain ⟨_, isClosed, congr⟩ := substitution_local
  exact ⟨by decide, isClosed t closing (by decide) (by decide) (by decide),
    congr t (by decide) _ _ (by decide)⟩

end Substitution

end MemberAccess
