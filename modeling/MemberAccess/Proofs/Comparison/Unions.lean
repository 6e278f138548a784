import MemberAccess.Proofs.Building
import MemberAccess.Proofs.Comparison.UpperBounds

/-!
Nullable types and types with a `FutureOr` on the left of the subtype check. Each of them is
compared like the union that it stands for, also where the question is settled by one of the rules
that are tried before those for unions.
-/
namespace MemberAccess

open Filter

/-- Whether the second type is the first one with question marks and `FutureOr` around it. -/
inductive Ty.Within : Ty → Ty → Prop
  | refl : Within t t
  | nullable : Within t u → Within t (.nullable u)
  | futureOr : Within t u → Within t (.futureOr u)

namespace Ty.Within

variable {t u v : Ty}

theorem trans (h : Within t u) (h' : Within u v) : Within t v := by
  induction h' with
  | refl => exact h
  | nullable _ ih => exact .nullable ih
  | futureOr _ ih => exact .futureOr ih

theorem acceptsNull (h : Within t u) (accepts : t.acceptsNull) : u.acceptsNull := by
  induction h with
  | refl => exact accepts
  | nullable => rfl
  | futureOr _ ih => exact ih

theorem isTop (h : Within t u) (isTop : t.isTop) : u.isTop := by
  induction h with
  | refl => exact isTop
  | nullable _ ih => simp [Ty.isTop, ih]
  | futureOr _ ih => exact ih

theorem ne_never_of_futureOr (h : Within (.futureOr t) u) : u ≠ .never := by
  cases h <;> simp

end Ty.Within

namespace Program

variable {P : Program} {n : Nat} {a b s t u v : Ty}

theorem below_unknown : P.Below a .unknown := ⟨0, subtype_of_easy (by simp)⟩

theorem below_iff_of_isNull (isNull : a.isNull) : P.Below a b ↔ b.acceptsNull := by
  constructor
  · rintro ⟨n, h⟩
    have own : a.acceptsNull := Ty.acceptsNull_of_isNullable (Ty.isNullable_of_isNull isNull)
    cases foundBy_of_subtype h with
    | easy easy =>
      rcases easy with rfl | rfl | rfl | isTop | rfl
      · exact own
      · cases isNull
      · rfl
      · exact Ty.acceptsNull_of_isTop isTop
      · cases isNull
    | null _ admits => exact acceptsNull_of_admitsNull admits
    | object notNull | union notNull => exact absurd isNull notNull
  · intro accepts
    obtain ⟨n, admits⟩ := exists_admitsNull accepts
    exact ⟨n, subtype_of_null isNull admits⟩

/-- Whether a type is not denied to be a subtype once the limit is great enough, be it that it is
    found to be one or that an entry is missing. -/
def Undenied (P : Program) (a b : Ty) : Prop := ∀ᶠ n in atTop, P.subtype n a b ≠ .ok false

theorem Below.undenied (h : P.Below a b) : P.Undenied a b := by
  obtain ⟨limit, h⟩ := h
  filter_upwards [eventually_ge_atTop (limit + 1)] with n hn
  exact subtype_upholds hn h

theorem Closed.below_of_undenied {φ : Ty → Prop} (closed : P.Closed φ) (ha : a.Every φ)
    (hb : b.Every φ) (h : P.Undenied a b) : P.Below a b := by
  obtain ⟨n, h⟩ := h.exists
  obtain ⟨answer, hanswer⟩ := closed.subtype_answered (n := n) ha hb
  cases answer with
  | true => exact below_of_subtype hanswer
  | false => exact absurd hanswer h

theorem superArgs_self_ne_none {i : Instance} : P.superArgs? i i.decl ≠ .ok none := by
  intro h
  obtain ⟨found, hfound, h⟩ := bind_eq_ok.1 h
  obtain ⟨_, _, walk⟩ := bind_eq_ok.1 hfound
  obtain ⟨rest, _, same⟩ := bind_eq_ok.1 walk
  obtain rfl := pure_eq_ok.1 same
  simp at h

theorem isNonNull_object (isObject : s.isObject) : P.isNonNull (n + 1) s ≠ .ok false := by
  cases s with
  | interface d as =>
    obtain rfl : d = .object := by simpa [Ty.isObject] using isObject
    intro denied
    obtain ⟨args, hargs, denied⟩ := bind_eq_ok.1 denied
    have none : args = none := by simpa using denied
    subst none
    exact superArgs_self_ne_none (i := ⟨.object, as⟩) hargs
  | _ => cases isObject

namespace Undenied

theorem of_union (extreme : ¬ (a = .dynamic ∨ a = .void ∨ b = .never)) (notNull : ¬ a.isNull)
    (object : ∀ᶠ n in atTop, b.isObject → P.isNonNull n a ≠ .ok false)
    (union : ∀ᶠ n in atTop, P.subtypeByUnion n a b ≠ .ok false) : P.Undenied a b := by
  have next : ∀ᶠ n in atTop, P.subtype (n + 1) a b ≠ .ok false := by
    filter_upwards [object, union] with n object union
    rw [subtype_succ]
    split
    · nofun
    split
    · nofun
    split
    · next isObject => exact object isObject
    · exact union
  exact eventually_succ.1 next

theorem of_atomic (atomic : a.isAtomic) (above : b ≠ .never)
    (object : ∀ᶠ n in atTop, b.isObject → P.isNonNull n a ≠ .ok false)
    (union : ∀ᶠ n in atTop, P.subtypeByUnion n a b ≠ .ok false) : P.Undenied a b := by
  refine of_union ?_ ?_ object union <;> cases a <;> simp_all [Ty.isAtomic, Ty.isNull]

section Right

variable (atomic : a.isAtomic)

include atomic

theorem nullable_right (h : P.Undenied a u) : P.Undenied a (.nullable u) := by
  refine of_atomic atomic (by simp) (.of_forall fun _ => nofun) ?_
  filter_upwards [h] with n h
  rw [union_nullable atomic]
  exact choice_ne_false (.inl h)

theorem futureOr_right (h : P.Undenied a (.future u) ∨ P.Undenied a u) :
    P.Undenied a (.futureOr u) := by
  refine of_atomic atomic (by simp) (.of_forall fun _ => nofun) ?_
  have either : ∀ᶠ n in atTop,
      P.subtype n a (.future u) ≠ .ok false ∨ P.subtype n a u ≠ .ok false :=
    h.elim (Eventually.mono · fun _ => .inl) (Eventually.mono · fun _ => .inr)
  filter_upwards [either] with n h
  rw [union_futureOr atomic]
  exact choice_ne_false (h.imp_right fun h => choice_ne_false (.inl h))

theorem widen (h : P.Undenied a u) (within : Ty.Within u v) : P.Undenied a v := by
  induction within with
  | refl => exact h
  | nullable _ ih => exact nullable_right atomic ih
  | futureOr _ ih => exact futureOr_right atomic (.inr ih)

end Right

theorem nullable_left (h : P.Undenied t s) (accepts : s.acceptsNull) :
    P.Undenied (.nullable t) s := by
  have notNever := ne_never_of_acceptsNull accepts
  have notObject := not_isObject_of_acceptsNull accepts
  obtain ⟨m, admits⟩ := exists_admitsNull accepts
  refine of_union (by simpa using notNever) (by simp [Ty.isNull])
    (.of_forall fun _ isObject => absurd isObject notObject) ?_
  filter_upwards [h, eventually_ge_atTop m] with n h deeper
  exact guard_ne_false h (by simp [admitsNull_mono admits deeper])

theorem isNonNull (h : P.Undenied t s) (isObject : s.isObject) :
    ∀ᶠ n in atTop, P.isNonNull n t ≠ .ok false := by
  refine eventually_succ.1 ?_
  filter_upwards [eventually_succ.2 (eventually_succ.2 h)] with n h
  rw [subtype_succ] at h
  split at h
  · next easy =>
    rcases easy with rfl | rfl | rfl
    · exact isNonNull_object isObject
    · nofun
    · cases isObject
  split at h
  · next easy =>
    rcases easy with isTop | rfl
    · exact absurd isObject (not_isObject_of_isTop isTop)
    · nofun
  split at h
  · exact absurd rfl h
  split at h
  · refine absurd (congrArg pure ?_) h
    rw [← Bool.not_eq_true]
    exact fun admits => not_isObject_of_acceptsNull (acceptsNull_of_admitsNull admits) isObject
  · exact h

theorem futureOr_left (notNever : s ≠ .never) (future : P.Undenied (.future t) s)
    (h : P.Undenied t s) : P.Undenied (.futureOr t) s := by
  refine of_union (by simpa using notNever) (by simp [Ty.isNull]) (eventually_succ.1 ?_) ?_
  · by_cases isObject : s.isObject
    · filter_upwards [h.isNonNull isObject] with n nonNull _
      exact nonNull
    · exact .of_forall fun _ found => absurd found isObject
  · filter_upwards [future, h] with n future h
    exact guard_ne_false future h

end Undenied

theorem undenied_future : P.Undenied (.future t) (.futureOr t) :=
  .futureOr_right rfl (.inl (below_refl _).undenied)

theorem undenied_of_within (h : Ty.Within t v) : P.Undenied t v := by
  induction t using Ty.induct generalizing v with
  | dynamic | void => exact (below_of_isTop (h.isTop rfl)).undenied
  | interface d as =>
    by_cases isNull : (Ty.interface d as).isNull
    · have accepts := Ty.acceptsNull_of_isNullable (Ty.isNullable_of_isNull isNull)
      exact ((below_iff_of_isNull isNull).2 (h.acceptsNull accepts)).undenied
    · exact (below_refl _).undenied.widen (by simpa [Ty.isAtomic] using isNull) h
  | nullable t ih =>
    exact (ih (Ty.Within.trans (.nullable .refl) h)).nullable_left (h.acceptsNull rfl)
  | futureOr t ih =>
    exact .futureOr_left h.ne_never_of_futureOr (undenied_future.widen rfl h)
      (ih (Ty.Within.trans (.futureOr .refl) h))
  | _ => exact (below_refl _).undenied.widen rfl h

theorem Below.of_nullable (h : P.Below (.nullable t) s) : P.Undenied t s ∧ s.acceptsNull := by
  obtain ⟨n, h⟩ := h
  cases foundBy_of_subtype h with
  | easy easy =>
    rcases easy with rfl | easy | rfl | isTop | easy
    · exact ⟨undenied_of_within (.nullable .refl), rfl⟩
    · cases easy
    · exact ⟨below_unknown.undenied, rfl⟩
    · exact ⟨(below_of_isTop isTop).undenied, Ty.acceptsNull_of_isTop isTop⟩
    · cases easy
  | null isNull => cases isNull
  | object _ _ nonNull => cases n <;> simp [isNonNull] at nonNull
  | union _ _ _ h =>
    obtain ⟨h, admits⟩ := guard_eq_ok.1 h
    exact ⟨(below_of_subtype h).undenied, acceptsNull_of_admitsNull (by simpa using admits)⟩

theorem below_never_iff : P.Below a .never ↔ a = .never ∨ a = .unknown := by
  constructor
  · rintro ⟨n, h⟩
    cases foundBy_of_subtype h with
    | easy easy => simpa [Ty.isTop, or_comm] using easy
    | null _ admits => cases acceptsNull_of_admitsNull admits
    | object _ isObject => cases isObject
    | union _ _ notExtreme => exact absurd (.inr (.inr rfl)) notExtreme
  · rintro (rfl | rfl)
    · exact below_refl _
    · exact ⟨0, subtype_of_easy (by simp)⟩

theorem undenied_futureOr (future : P.Below (.future t) s) (h : P.Below t s) :
    P.Undenied (.futureOr t) s := by
  refine .futureOr_left ?_ future.undenied h.undenied
  rintro rfl
  simpa [Ty.future] using below_never_iff.1 future

section Built

variable (built : P.Built)

include built

theorem Built.not_isNonNull_null (isNull : t.isNull) : P.isNonNull n t ≠ .ok true := by
  cases n with
  | zero => simp [isNonNull]
  | succ n =>
    cases t with
    | interface d as =>
      obtain rfl : d = .null := by simpa [Ty.isNull] using isNull
      have other : TypeId.null ≠ TypeId.object := by decide
      simp [isNonNull, superArgs?, built.supertypes_null, other]
    | _ => cases isNull

theorem Built.below_object (isObject : s.isObject) (h : P.isNonNull n t = .ok true) :
    P.Below t s := by
  have notNull : ¬ t.isNull := fun isNull => built.not_isNonNull_null isNull h
  exact ⟨n, subtype_of_object notNull isObject h⟩

theorem Built.isNonNull_future : P.isNonNull 1 (.future t) = .ok true := by
  simp [isNonNull, Ty.future, superArgs?, built.supertypes_future]

theorem Built.below_of_futureOr (h : P.Below (.futureOr t) s) :
    P.Undenied (.future t) s ∧ P.Undenied t s := by
  obtain ⟨n, h⟩ := h
  cases foundBy_of_subtype h with
  | easy easy =>
    rcases easy with rfl | easy | rfl | isTop | easy
    · exact ⟨undenied_future, undenied_of_within (.futureOr .refl)⟩
    · cases easy
    · exact ⟨below_unknown.undenied, below_unknown.undenied⟩
    · exact ⟨(below_of_isTop isTop).undenied, (below_of_isTop isTop).undenied⟩
    · cases easy
  | null isNull => cases isNull
  | object _ isObject nonNull =>
    cases n with
    | zero => simp [isNonNull] at nonNull
    | succ n =>
      have inner : P.isNonNull n t = .ok true := nonNull
      exact ⟨(built.below_object isObject built.isNonNull_future).undenied,
        (built.below_object isObject inner).undenied⟩
  | union _ _ _ h =>
    obtain ⟨future, h⟩ := guard_eq_ok.1 h
    exact ⟨(below_of_subtype future).undenied, (below_of_subtype h).undenied⟩

end Built

/-- On the left, `t?` is compared like the union of `t` and `Null`, and `FutureOr<t>` like that of
    `Future<t>` and `t`. For types that only lead to entries that are there this is an equivalence.
    Where an entry is missing, a comparison may be left open that the other side of the equivalence
    decides, but it is not denied. -/
theorem unions_on_left (P : Program) (built : P.Built) (t s : Ty) :
    ((P.Below (.nullable t) s → P.Undenied t s ∧ P.Below .null s) ∧
      (P.Below t s → P.Below .null s → P.Undenied (.nullable t) s)) ∧
    ((P.Below (.futureOr t) s → P.Undenied (.future t) s ∧ P.Undenied t s) ∧
      (P.Below (.future t) s → P.Below t s → P.Undenied (.futureOr t) s)) ∧
    ∀ φ, P.Closed φ → t.Every φ → s.Every φ →
      (P.Below (.nullable t) s ↔ P.Below t s ∧ P.Below .null s) ∧
        (P.Below (.futureOr t) s ↔ P.Below (.future t) s ∧ P.Below t s) := by
  have null : P.Below .null s ↔ s.acceptsNull := below_iff_of_isNull rfl
  have nullable (h : P.Below (.nullable t) s) : P.Undenied t s ∧ P.Below .null s :=
    ⟨h.of_nullable.1, null.2 h.of_nullable.2⟩
  have ofNullable (h : P.Below t s) (accepts : P.Below .null s) : P.Undenied (.nullable t) s :=
    h.undenied.nullable_left (null.1 accepts)
  refine ⟨⟨nullable, ofNullable⟩, ⟨built.below_of_futureOr, undenied_futureOr⟩, ?_⟩
  intro φ closed ht hs
  have every_nullable : (Ty.nullable t).Every φ :=
    Ty.every_nullable.2 ⟨closed.plain _ rfl rfl, ht⟩
  have every_futureOr : (Ty.futureOr t).Every φ :=
    Ty.every_futureOr.2 ⟨closed.plain _ rfl rfl, ht⟩
  refine ⟨⟨fun h => ?_, fun ⟨h, accepts⟩ => ?_⟩, ⟨fun h => ?_, fun ⟨future, h⟩ => ?_⟩⟩
  · obtain ⟨inner, accepts⟩ := nullable h
    exact ⟨closed.below_of_undenied ht hs inner, accepts⟩
  · exact closed.below_of_undenied every_nullable hs (ofNullable h accepts)
  · obtain ⟨future, inner⟩ := built.below_of_futureOr h
    exact ⟨closed.below_of_undenied (closed.every_future ht) hs future,
      closed.below_of_undenied ht hs inner⟩
  · exact closed.below_of_undenied every_futureOr hs (undenied_futureOr future h)

theorem core_unions_on_left :
    let int : Ty := .interface ⟨5⟩ []
    let either : Ty := .futureOr (.interface ⟨4⟩ [])
    core.Built ∧ core.Closed (core.headInRange ·) ∧
      core.Below (.nullable int) (.nullable either) ∧ core.Below (.futureOr int) either ∧
      ¬ core.Below (.nullable int) either := by
  intro int either
  have closed : core.Closed (core.headInRange ·) := wellFormed_core.closed
  have unions (s : Ty) := unions_on_left core built_core int s
  have found : core.subtype 8 int either = .ok true := by decide +kernel
  have future : core.subtype 8 (.future int) either = .ok true := by decide +kernel
  have wider : core.subtype 8 int (.nullable either) = .ok true := by decide +kernel
  have null : core.subtype 8 .null (.nullable either) = .ok true := by decide +kernel
  refine ⟨built_core, closed, ?_, ?_, fun below => ?_⟩
  · obtain ⟨nullable, _⟩ := (unions (.nullable either)).2.2 _ closed (by decide) (by decide)
    exact nullable.2 ⟨below_of_subtype wider, below_of_subtype null⟩
  · obtain ⟨_, futureOr⟩ := (unions either).2.2 _ closed (by decide) (by decide)
    exact futureOr.2 ⟨below_of_subtype future, below_of_subtype found⟩
  · have accepts := (below_iff_of_isNull rfl).1 ((unions either).1.1 below).2
    cases accepts

end Program

end MemberAccess
