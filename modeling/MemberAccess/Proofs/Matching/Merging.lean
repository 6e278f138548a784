import MemberAccess.Proofs.Matching.Completeness

/-!
Several types for one variable. They are merged one after the other to an upper bound, which serves
for the variable only if it is on the right side of all of them.
-/
namespace MemberAccess

open Filter

def offered (os : List Offer) (p : ParamId) : List Ty :=
  (os.filter (·.param = p)).map (·.type)

namespace Program

/-- What is found for a variable if types are offered to it one after the other. -/
def merged (P : Program) (limit : Nat) : Option Ty → List Ty → Except Fault (Option Ty)
  | found, [] => pure found
  | none, t :: ts => P.merged limit (some t) ts
  | some lower, t :: ts => do P.merged limit (some (← P.upperBound (limit + 1) lower t)) ts

/-- Whether a type for a variable is on the right side of one that it is offered. -/
def Respected (P : Program) (o : Offer) (u : Ty) : Prop :=
  if o.covariant then P.Below o.type u else P.Below u o.type

/-- Whether no placeholder is offered, and a variable that is offered several types gets one, from
    some limit on, that is on the right side of all of them. -/
structure Mergeable (P : Program) (os : List Offer) : Prop where
  known : ∀ o ∈ os, o.type ≠ .unknown
  merged : ∀ p, 2 ≤ (offered os p).length →
    ∃ u, (∀ᶠ limit in atTop, P.merged limit none (offered os p) = .ok (some u)) ∧
      ∀ o ∈ os, o.param = p → P.Respected o u

variable {P : Program} {limit n : Nat} {os : List Offer} {o : Offer} {p : ParamId} {t u l r : Ty}
  {s : Substitution} {f : ParamId → Option Ty} {ts : List Ty} {found : Option Ty}

theorem offered_cons : offered (o :: os) p =
    if o.param = p then o.type :: offered os p else offered os p := by
  unfold offered
  split <;> simp [*]

theorem mem_offered : t ∈ offered os p ↔ ∃ o ∈ os, o.param = p ∧ o.type = t := by
  simp [offered, and_assoc]

theorem offered_eq_nil : offered os p = [] ↔ ∀ o ∈ os, o.param ≠ p := by
  simp [offered, List.filter_eq_nil_iff]

theorem record_eq_some (h : ∀ p, P.merged limit (s.get? p) (offered os p) = .ok (f p)) :
    ∃ s', P.record limit os s = .ok (some s') ∧ ∀ p, s'.get? p = f p := by
  induction os generalizing s with
  | nil => exact ⟨s, rfl, fun p => by simpa [offered, merged] using h p⟩
  | cons o os ih =>
    have here := h o.param
    rw [offered_cons, if_pos rfl] at here
    have insert (u : Ty) (hu : P.merged limit (some u) (offered os o.param) = .ok (f o.param)) :
        ∃ s', P.record limit os (s.insert o.param u) = .ok (some s') ∧ ∀ p, s'.get? p = f p := by
      refine ih fun p => ?_
      rw [Substitution.get?_insert]
      split
      · next same => rwa [same]
      · next other =>
        have there := h p
        rwa [offered_cons, if_neg (Ne.symm other)] at there
    cases value : s.get? o.param with
    | none =>
      rw [value] at here
      obtain ⟨s', hs', same⟩ := insert o.type here
      refine ⟨s', andThen_eq_some.2 ⟨_, ?_, hs'⟩, same⟩
      rw [bindLower, value]
      rfl
    | some lower =>
      rw [value] at here
      obtain ⟨u, hu, here⟩ := bind_eq_ok.1 here
      obtain ⟨s', hs', same⟩ := insert u here
      refine ⟨s', andThen_eq_some.2 ⟨_, ?_, hs'⟩, same⟩
      rw [bindLower, value]
      exact bind_eq_ok.2 ⟨u, hu, rfl⟩

theorem eventually_record
    (h : ∀ p, ∀ᶠ limit in atTop, P.merged limit none (offered os p) = .ok (f p)) :
    ∀ᶠ limit in atTop, ∃ s, P.record limit os .empty = .ok (some s) ∧ ∀ p, s.get? p = f p := by
  have recorded : ∀ᶠ limit in atTop, ∀ p ∈ os.map (·.param),
      P.merged limit none (offered os p) = .ok (f p) :=
    eventually_forall_mem fun p _ => h p
  filter_upwards [recorded] with limit hlimit
  refine record_eq_some fun p => ?_
  by_cases member : p ∈ os.map (·.param)
  · exact hlimit p member
  · have nothing : offered os p = [] := offered_eq_nil.2 (by simpa using member)
    obtain ⟨limit, absent⟩ := (h p).exists
    rw [nothing] at absent ⊢
    exact absent

section UpperBounds

theorem upperBoundByShape_ne_unknown {meet : Ty → Ty → Except Fault Ty}
    (h : P.upperBoundByShape meet l r = .ok u) : u ≠ .unknown := by
  unfold upperBoundByShape at h
  split at h
  · split at h
    · obtain ⟨args, _, same⟩ := bind_eq_ok.1 h
      cases same
      simp
    · obtain ⟨found, _, h⟩ := bind_eq_ok.1 h
      obtain ⟨shared, _, same⟩ := bind_eq_ok.1 h
      cases shared <;> cases same <;> simp [Instance.type, Ty.object]
  · cases h
    simp [Ty.object]

theorem upperBound_ne_unknown (hl : l ≠ .unknown) (hr : r ≠ .unknown)
    (h : P.upperBound n l r = .ok u) : u ≠ .unknown := by
  cases n with
  | zero =>
    cases h
    simp [Ty.object, Ty.orNull]
  | succ n =>
    obtain ⟨forward, _, h⟩ := bind_eq_ok.1 h
    split at h
    · cases h
      exact hr
    obtain ⟨backward, _, h⟩ := bind_eq_ok.1 h
    split at h
    · cases h
      exact hl
    split at h
    · cases h
      simpa using hr
    split at h
    · cases h
      simpa using hl
    generalize Ty.stripNullable l r = stripped at h
    obtain ⟨bound, hbound, same⟩ := bind_eq_ok.1 h
    have known := upperBoundByShape_ne_unknown hbound
    cases same
    split
    · simpa using known
    · exact known

theorem Coherent.merged_valid (coherent : P.Coherent)
    (hts : ∀ t ∈ ts, P.Valid t ∧ t ≠ .unknown) (hfound : ∀ t ∈ found, P.Valid t ∧ t ≠ .unknown)
    (h : P.merged limit found ts = .ok (some u)) : P.Valid u ∧ u ≠ .unknown := by
  induction ts generalizing found with
  | nil =>
    cases h
    exact hfound u rfl
  | cons t ts ih =>
    obtain ⟨ht, hts⟩ := List.forall_mem_cons.1 hts
    cases found with
    | none => exact ih hts (by simpa using ht) h
    | some lower =>
      have hlower := hfound lower rfl
      obtain ⟨v, hv, h⟩ := bind_eq_ok.1 h
      obtain ⟨v', hv', valid⟩ := coherent.closed.upperBound (n := limit + 1) hlower.1 ht.1
      rw [hv] at hv'
      cases hv'
      have known := upperBound_ne_unknown hlower.2 ht.2 hv
      exact ih hts (by simpa using ⟨valid, known⟩) h

end UpperBounds

theorem respected_self : o.type = u → P.Respected o u := by
  rintro rfl
  have below : P.Below o.type o.type := ⟨0, subtype_of_easy (.inl rfl)⟩
  unfold Respected
  split <;> exact below

theorem Mergeable.exists_merged (mergeable : P.Mergeable os) (p : ParamId) : ∃ r : Option Ty,
    (∀ᶠ limit in atTop, P.merged limit none (offered os p) = .ok r) ∧
    ((∀ o ∈ os, o.param ≠ p) → r = none) ∧
    ∀ o ∈ os, o.param = p → ∃ u, r = some u ∧ P.Respected o u := by
  have own {o : Offer} (ho : o ∈ os) (same : o.param = p) : o.type ∈ offered os p :=
    mem_offered.2 ⟨o, ho, same, rfl⟩
  match types : offered os p with
  | [] =>
    refine ⟨none, .of_forall fun _ => rfl, fun _ => rfl, fun o ho same => ?_⟩
    exact absurd same (offered_eq_nil.1 types o ho)
  | [t] =>
    have some : ¬ ∀ o ∈ os, o.param ≠ p := mt offered_eq_nil.2 (by simp [types])
    refine ⟨t, .of_forall fun _ => rfl, fun none => absurd none some, fun o ho same => ⟨t, rfl, ?_⟩⟩
    have single := own ho same
    rw [types, List.mem_singleton] at single
    exact respected_self single
  | t :: u :: ts =>
    have some : ¬ ∀ o ∈ os, o.param ≠ p := mt offered_eq_nil.2 (by simp [types])
    obtain ⟨v, found, respected⟩ := mergeable.merged p (by simp [types])
    rw [types] at found
    exact ⟨v, found, fun none => absurd none some, fun o ho same => ⟨v, rfl, respected o ho same⟩⟩

theorem Mergeable.solution (mergeable : P.Mergeable os) (coherent : P.Coherent)
    (valid : ∀ o ∈ os, P.Valid o.type) :
    ∃ f : ParamId → Option Ty,
      (∀ᶠ limit in atTop, ∃ s, P.record limit os .empty = .ok (some s) ∧ ∀ p, s.get? p = f p) ∧
      (∀ p, (∀ o ∈ os, o.param ≠ p) → f p = none) ∧
      ∀ o ∈ os, ∃ u, f o.param = some u ∧ P.Valid u ∧ u ≠ .unknown ∧ P.Respected o u := by
  have each (p : ParamId) := mergeable.exists_merged p
  choose f hf using each
  have absent (p : ParamId) (away : ∀ o ∈ os, o.param ≠ p) : f p = none := (hf p).2.1 away
  refine ⟨f, eventually_record fun p => (hf p).1, absent, fun o ho => ?_⟩
  obtain ⟨u, hu, respected⟩ := (hf o.param).2.2 o ho rfl
  obtain ⟨limit, hlimit⟩ := (hf o.param).1.exists
  rw [hu] at hlimit
  have types : ∀ t ∈ offered os o.param, P.Valid t ∧ t ≠ .unknown := by
    intro t ht
    obtain ⟨o', ho', _, rfl⟩ := mem_offered.1 ht
    exact ⟨valid o' ho', mergeable.known o' ho'⟩
  obtain ⟨valid, known⟩ := coherent.merged_valid types (by simp) hlimit
  exact ⟨u, hu, valid, known, respected⟩

end Program

end MemberAccess
