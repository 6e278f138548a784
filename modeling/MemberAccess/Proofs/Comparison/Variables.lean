import MemberAccess.Proofs.Comparison.Unions

/-!
Type parameters and promoted type parameters on the left of the subtype check. They are below what
they stand for, whatever that looks like, except for `Never`: the check gives up at `Never` before
it comes to the rules for type parameters.
-/
namespace MemberAccess

open Filter

def Ty.endsInNever : Ty → Bool
  | .never => true
  | .promoted _ t => endsInNever t
  | _ => false

namespace Program

variable {P : Program} {n : Nat} {a t u v : Ty} {p q : ParamId}

theorem Climbs.isVariable (climbs : P.Climbs a u) : a.param?.isSome := by
  cases climbs <;> rfl

theorem isAtomic_of_variable (isVariable : a.param?.isSome) : a.isAtomic := by
  cases a <;> first | rfl | cases isVariable

namespace Undenied

theorem of_shape (atomic : a.isAtomic) (above : v.isAboveBounds)
    (object : ∀ᶠ n in atTop, v.isObject → P.isNonNull n a ≠ .ok false)
    (shape : ∀ᶠ n in atTop, P.subtypeByShape (P.subtype n) a v ≠ .ok false) :
    P.Undenied a v := by
  refine of_atomic atomic (ne_never_of_isAboveBounds above) object ?_
  filter_upwards [shape] with n shape
  cases v with
  | nullable =>
    rw [union_nullable atomic]
    exact choice_ne_false (.inr shape)
  | futureOr =>
    rw [union_futureOr atomic]
    exact choice_ne_false (.inr (choice_ne_false (.inr shape)))
  | promoted => cases above
  | _ => cases a <;> first | exact shape | cases atomic

theorem of_climbs (climbs : P.Climbs a u) (above : v.isAboveBounds) (h : P.Undenied u v) :
    P.Undenied a v := by
  refine of_shape (isAtomic_of_variable climbs.isVariable) above (eventually_succ.1 ?_) ?_
  · by_cases isObject : v.isObject
    · filter_upwards [h.isNonNull isObject] with n nonNull _
      cases climbs with
      | bound hbound => simpa [Program.isNonNull, hbound, ok_bind] using nonNull
      | promoted => exact choice_ne_false (.inl nonNull)
    · exact .of_forall fun _ found => absurd found isObject
  · filter_upwards [h] with n h
    cases climbs with
    | bound hbound => simpa [subtypeByShape, hbound, ok_bind] using h
    | promoted => exact choice_ne_false (.inr h)

theorem promoted_right (atomic : a.isAtomic) (param : P.Undenied a (.param p))
    (h : P.Undenied a t) : P.Undenied a (.promoted p t) := by
  refine of_atomic atomic (by simp) (.of_forall fun _ => nofun) ?_
  filter_upwards [param, h] with n param h
  rw [union_promoted atomic]
  exact guard_ne_false param h

end Undenied

theorem promoted_below_param : P.Below (.promoted p t) (.param p) :=
  ⟨1, subtype_of_atomic rfl (by simp) nofun (choice_eq_ok.2 (.inl (subtype_of_easy (.inl rfl))))⟩

theorem undenied_of_above (atomic : a.isAtomic) (ends : ¬ t.endsInNever)
    (keeps : ∀ v : Ty, v.isAboveBounds → P.Undenied t v → P.Undenied a v) : P.Undenied a t := by
  induction t using Ty.induct with
  | never => exact absurd rfl ends
  | promoted q t ih =>
    have param := keeps (.param q) rfl promoted_below_param.undenied
    exact .promoted_right atomic param
      (ih ends fun v above h => keeps v above (h.of_climbs .promoted above))
  | _ => exact keeps _ rfl (below_refl _).undenied

theorem below_of_below_promoted (isVariable : a.param?.isSome) (h : P.Below a (.promoted q t)) :
    a = .promoted q t ∨ P.Below a t := by
  obtain ⟨n, h⟩ := h
  have atomic := isAtomic_of_variable isVariable
  cases foundBy_of_subtype h with
  | easy easy =>
    rcases easy with same | rfl | easy | isTop | rfl
    · exact .inl same
    · cases isVariable
    · cases easy
    · cases isTop
    · cases isVariable
  | null _ admits => cases acceptsNull_of_admitsNull admits
  | object _ isObject => cases isObject
  | union _ _ _ h =>
    rw [union_promoted atomic] at h
    exact .inr (below_of_subtype (guard_eq_ok.1 h).2)

theorem not_below_of_endsInNever (isVariable : a.param?.isSome) (ends : t.endsInNever)
    (larger : a.isPromoted → sizeOf t < sizeOf a) : ¬ P.Below a t := by
  induction t using Ty.induct with
  | never =>
    intro h
    rcases below_never_iff.1 h with rfl | rfl <;> cases isVariable
  | promoted q t ih =>
    intro h
    rcases below_of_below_promoted isVariable h with rfl | h
    · exact absurd (larger rfl) (lt_irrefl _)
    · refine ih ends (fun isPromoted => ?_) h
      have := larger isPromoted
      simp only [Ty.promoted.sizeOf_spec] at this
      omega
  | _ => cases ends

theorem Climbs.undenied (climbs : P.Climbs a u) (ends : ¬ u.endsInNever) : P.Undenied a u :=
  undenied_of_above (isAtomic_of_variable climbs.isVariable) ends fun _ above h =>
    h.of_climbs climbs above

theorem Climbs.not_below (climbs : P.Climbs a u) (ends : u.endsInNever) : ¬ P.Below a u := by
  refine not_below_of_endsInNever climbs.isVariable ends fun isPromoted => ?_
  cases climbs with
  | bound => cases isPromoted
  | promoted =>
    rw [Ty.promoted.sizeOf_spec]
    omega

theorem Closed.below_iff_of_climbs {φ : Ty → Prop} (closed : P.Closed φ) (climbs : P.Climbs a u)
    (ha : a.Every φ) (hu : u.Every φ) : P.Below a u ↔ ¬ u.endsInNever :=
  ⟨fun below ends => climbs.not_below ends below,
    fun ends => closed.below_of_undenied ha hu (climbs.undenied ends)⟩

/-- A type parameter is below its bound, and a promoted one below the parameter and below the type
    it is promoted to, if that does not end in `Never`. -/
theorem variables_below (P : Program) (p : ParamId) (bound t : Ty)
    (hbound : P.boundOf p = .ok bound) :
    P.Below (.promoted p t) (.param p) ∧
    ((¬ bound.endsInNever → P.Undenied (.param p) bound) ∧
      (bound.endsInNever → ¬ P.Below (.param p) bound)) ∧
    ((¬ t.endsInNever → P.Undenied (.promoted p t) t) ∧
      (t.endsInNever → ¬ P.Below (.promoted p t) t)) ∧
    ∀ φ, P.Closed φ → φ (.param p) → t.Every φ →
      (P.Below (.param p) bound ↔ ¬ bound.endsInNever) ∧
        (P.Below (.promoted p t) t ↔ ¬ t.endsInNever) := by
  have declared : P.Climbs (.param p) bound := .bound hbound
  have promoted : P.Climbs (.promoted p t) t := .promoted
  refine ⟨promoted_below_param, ⟨declared.undenied, declared.not_below⟩,
    ⟨promoted.undenied, promoted.not_below⟩, ?_⟩
  intro φ closed hp ht
  obtain ⟨found, hfound, every⟩ := closed.bounds p hp
  obtain rfl : found = bound := Except.ok.inj (hfound.symm.trans hbound)
  have every_promoted : (Ty.promoted p t).Every φ :=
    Ty.every_promoted.2 ⟨(closed.promoted p t).2 hp, ht⟩
  exact ⟨closed.below_iff_of_climbs declared (Ty.every_param.2 hp) every,
    closed.below_iff_of_climbs promoted every_promoted ht⟩

/-- Parameters `X extends Y & FutureOr<X>?`, `Y`, and `N extends Y & Never`. -/
def promotedBounds : Program :=
  { core with
    params := .ofList
      [⟨"T", none⟩, ⟨"T", none⟩, ⟨"E", none⟩, ⟨"E", none⟩,
        ⟨"X", some (.promoted ⟨5⟩ (.nullable (.futureOr (.param ⟨4⟩))))⟩, ⟨"Y", none⟩,
        ⟨"N", some (.promoted ⟨5⟩ .never)⟩] }

theorem promotedBounds_below :
    let bound : Ty := .promoted ⟨5⟩ (.nullable (.futureOr (.param ⟨4⟩)))
    promotedBounds.boundOf ⟨4⟩ = .ok bound ∧
      promotedBounds.Closed (promotedBounds.headInRange ·) ∧
      promotedBounds.Below (.param ⟨4⟩) bound ∧
      promotedBounds.Below (.promoted ⟨4⟩ .never) (.param ⟨4⟩) ∧
      ¬ promotedBounds.Below (.promoted ⟨4⟩ .never) .never ∧
      ¬ promotedBounds.Below (.param ⟨6⟩) (.promoted ⟨5⟩ .never) := by
  intro bound
  have wf : promotedBounds.WellFormed := ⟨rfl, rfl, by decide, by decide, by decide⟩
  obtain ⟨param, _, ⟨_, refused⟩, exact⟩ :=
    variables_below promotedBounds ⟨4⟩ bound .never rfl
  obtain ⟨_, ⟨_, refusedBound⟩, _⟩ :=
    variables_below promotedBounds ⟨6⟩ (.promoted ⟨5⟩ .never) .never rfl
  refine ⟨rfl, wf.closed, ?_, param, refused rfl, refusedBound rfl⟩
  exact (exact _ wf.closed (by decide) (by decide)).1.2 (by decide)

end Program

end MemberAccess
