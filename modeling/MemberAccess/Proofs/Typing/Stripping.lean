import Mathlib.Order.Filter.AtTopBot.Basic
import MemberAccess.Proofs.Range.WellFormed
import MemberAccess.Proofs.Typing.Completeness
import MemberAccess.Proofs.Typing.Normal

/-!
Types that differ in the question marks around them. Each of them is below the other ones that
accept null if it does, and that takes no declaration to derive, so that a check finds it in every
program whose indices are in range.
-/
namespace MemberAccess

open Filter

/-- Whether the second type is what is left of the first one without some of the question marks
    around it. -/
inductive Ty.Strips : Ty → Ty → Prop
  | refl : Strips t t
  | nullable : Strips t u → Strips (.nullable t) u

namespace Ty.Strips

variable {P : Program} {t u v w : Ty} {φ : Ty → Prop}

theorem inner (h : Strips t (.nullable u)) : Strips t u := by
  generalize whole : Ty.nullable u = v at h
  induction h with
  | refl =>
    subst whole
    exact .nullable .refl
  | nullable _ ih => exact .nullable (ih whole)

theorem eq (h : Strips t u) (last : ∀ v, t ≠ .nullable v) : u = t := by
  cases h with
  | refl => rfl
  | nullable => exact absurd rfl (last _)

theorem total (hu : Strips t u) (hv : Strips t v) : Strips u v ∨ Strips v u := by
  induction hu with
  | refl => exact .inl hv
  | nullable hu ih =>
    cases hv with
    | refl => exact .inr (.nullable hu)
    | nullable hv => exact ih hv

theorem every (h : Strips t u) (ht : t.Every φ) : u.Every φ := by
  induction h with
  | refl => exact ht
  | nullable _ ih => exact ih (every_nullable.1 ht).2

theorem of_orNull (h : Strips t.orNull u) :
    (∃ v, u = .nullable v ∧ Strips t v) ∨ (∀ v, u ≠ .nullable v) ∧ Strips t u := by
  by_cases nullable : ∃ v, u = .nullable v
  · obtain ⟨v, rfl⟩ := nullable
    refine .inl ⟨v, rfl, ?_⟩
    cases t with
    | nullable t => exact h.inner
    | dynamic | void | unknown => cases h
    | _ =>
      cases h with
      | refl => exact .refl
      | nullable h => exact h.inner
  · have last (v : Ty) (same : u = .nullable v) : False := nullable ⟨v, same⟩
    refine .inr ⟨last, ?_⟩
    cases t with
    | dynamic | void | unknown | nullable => exact h
    | _ =>
      cases h with
      | refl => exact absurd rfl (last _)
      | nullable h => exact h

theorem part_below (h : Strips t u) : P.Derivable u t := by
  induction h with
  | refl => exact .refl _
  | @nullable t u h ih =>
    by_cases known : t = .unknown
    · subst known
      rw [h.eq fun _ => by simp]
      exact .unknown_left
    · exact ih.widen (.nullable known)

theorem whole_below (h : Strips t u) (accepts : t.acceptsNull → u.acceptsNull) :
    P.Derivable t u := by
  induction h with
  | refl => exact .refl _
  | nullable _ ih => exact .nullable_left (ih fun _ => accepts rfl) (accepts rfl)

theorem derivable (hu : Strips t u) (hv : Strips t v) (accepts : u.acceptsNull → v.acceptsNull) :
    P.Derivable u v := by
  rcases hu.total hv with h | h
  · exact h.whole_below accepts
  · exact h.part_below

theorem normal_below (h : Strips t.normal u) (known : t.Known) : P.Derivable u t := by
  have whole {t : Ty} : P.Derivable t.normal t := (Program.replaces_normal t).2.derivable
  induction t using Ty.induct generalizing u with
  | nullable t ih =>
    have known : t.Known := (every_nullable.1 known).2
    have widen {u : Ty} (h : Strips t.normal u) : P.Derivable u (.nullable t) :=
      (ih h known).widen (.nullable known.ne_unknown)
    rw [normal_nullable] at h
    rcases h.of_orNull with ⟨v, rfl, inner⟩ | ⟨_, inner⟩
    · exact (widen inner).nullable_left rfl
    · exact widen inner
  | _ =>
    rw [h.eq fun _ => by simp [normal, replace]]
    exact whole

end Ty.Strips

namespace Program

variable {P : Program} {i j : Instance} {a b u v : Ty} {n : Nat}

def bare : Program := ⟨.empty, .empty, .empty, .empty⟩

theorem eq_of_bare_reaches (h : bare.Reaches i j) : j = i :=
  reaches_eq h fun _ ⟨d, hd, _⟩ => by simp [bare, Table.get?, Table.empty] at hd

theorem WellFormed.superArgs_self (wf : P.WellFormed) (hi : P.InRange i.type) :
    P.superArgs? i i.decl = .ok (some i.args) := by
  obtain ⟨found, hfound, _⟩ := wf.closed.supertypes i hi
  have first : ∃ rest, found = i :: rest := by
    obtain ⟨_, _, walk⟩ := bind_eq_ok.1 hfound
    obtain ⟨rest, _, same⟩ := bind_eq_ok.1 walk
    exact ⟨rest, (pure_eq_ok.1 same).symm⟩
  obtain ⟨rest, rfl⟩ := first
  rw [superArgs?, hfound, ok_bind]
  simp [pure, Except.pure]

theorem WellFormed.covers_bare (wf : P.WellFormed) : P.Covers bare (P.headInRange ·) where
  toClosed := wf.closed
  bound p t h := by simp [boundOf, bare, Table.fetch, Table.get?, Table.empty] at h
  supertype i j hi h := by
    rw [eq_of_bare_reaches h]
    exact wf.superArgs_self hi

theorem WellFormed.eventually_subtype (wf : P.WellFormed) (ha : P.InRange a) (hb : P.InRange b)
    (h : bare.Derivable a b) : ∀ᶠ limit in atTop, P.isSubtype limit a b = .ok true := by
  obtain ⟨n, h⟩ := h
  filter_upwards [eventually_ge_atTop (2 * n)] with limit hlimit
  exact wf.covers_bare.subtype_of_derives ha hb h (by omega)

theorem not_subtype_nullable (refuses : ¬ b.acceptsNull) :
    P.subtype n (.nullable a) b ≠ .ok true := by
  cases n with
  | zero => simp [subtype]
  | succ n =>
    intro h
    cases foundBy_of_subtype h with
    | easy easy =>
      rcases easy with rfl | easy | rfl | isTop | easy
      · exact refuses rfl
      · cases easy
      · exact refuses rfl
      · exact refuses (Ty.acceptsNull_of_isTop isTop)
      · cases easy
    | null isNull => cases isNull
    | object _ _ nonNull => cases n <;> simp [isNonNull] at nonNull
    | union _ _ _ h =>
      obtain ⟨_, admits⟩ := guard_eq_ok.1 h
      exact refuses (acceptsNull_of_admitsNull (by simpa using admits))

end Program

end MemberAccess
