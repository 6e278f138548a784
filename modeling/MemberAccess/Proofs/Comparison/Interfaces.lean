import MemberAccess.Proofs.Matching.Firm
import MemberAccess.Proofs.Range.WellFormed
import MemberAccess.Proofs.Typing.Monotonicity
import MemberAccess.Proofs.Typing.Stripping

/-!
Interface types and nullable types as the subtype check compares them, at limits that are great
enough. An interface type is compared by its supertypes, and a question mark on the left by what it
is around.
-/
namespace MemberAccess.Program

open Filter

variable {P : Program} {n : Nat} {a b t : Ty} {d e : TypeId} {as bs : List Ty}

theorem below_of_subtype (h : P.subtype n a b = .ok true) : P.Below a b := by
  cases n with
  | zero => simp [subtype] at h
  | succ n => exact ⟨n, h⟩

theorem below_refl (t : Ty) : P.Below t t := ⟨0, subtype_of_easy (.inl rfl)⟩

theorem below_of_isTop (isTop : b.isTop) : P.Below a b := ⟨0, subtype_of_easy (by simp [isTop])⟩

section InRange

variable (wf : P.WellFormed) (ha : P.InRange a) (hb : P.InRange b)

include wf ha hb

theorem WellFormed.eventually_of_below (h : P.Below a b) :
    ∀ᶠ n in atTop, P.subtype n a b = .ok true := by
  obtain ⟨limit, h⟩ := h
  exact wf.closed.eventually_subtype ha hb h

theorem WellFormed.refused (h : ¬ P.Below a b) (n : Nat) : P.subtype n a b = .ok false := by
  obtain ⟨answer, hanswer⟩ := wf.closed.subtype_answered (n := n) ha hb
  cases answer with
  | true => exact absurd (below_of_subtype hanswer) h
  | false => exact hanswer

end InRange

theorem WellFormed.eventually_forall_zip (wf : P.WellFormed) (ha : ∀ a ∈ as, P.InRange a)
    (hb : ∀ b ∈ bs, P.InRange b) (each : ∀ x ∈ as.zip bs, P.Below x.1 x.2) :
    ∀ᶠ n in atTop, ∀ x ∈ as.zip bs, P.subtype n x.1 x.2 = .ok true := by
  refine eventually_forall_mem fun x hx => ?_
  obtain ⟨left, right⟩ := List.of_mem_zip hx
  exact wf.eventually_of_below (ha _ left) (hb _ right) (each x hx)

theorem WellFormed.below_of_strips (wf : P.WellFormed) (h : Ty.Strips t a) (ht : P.InRange t) :
    P.Below a t :=
  (wf.eventually_subtype (h.every ht) ht h.part_below).exists

section Interface

variable (notNull : d ≠ .null)

include notNull

theorem isAtomic_interface : (Ty.interface d as).isAtomic := by
  simp [Ty.isAtomic, Ty.isNull, notNull]

theorem rules_of_subtype (h : P.subtype (n + 1) (.interface d as) t = .ok true) :
    t = .interface d as ∨ t = .unknown ∨ t.isTop ∨ t.isObject ∨
      P.subtypeByUnion n (.interface d as) t = .ok true := by
  cases foundBy_of_subtype h with
  | easy easy => rcases easy with rfl | easy | rfl | isTop | easy <;> simp_all
  | null isNull => exact absurd (by simpa [Ty.isNull] using isNull) notNull
  | object _ isObject => exact .inr (.inr (.inr (.inl isObject)))
  | union _ _ _ h => exact .inr (.inr (.inr (.inr h)))

theorem union_of_subtype (plain : Instance.ofType? t = none) (known : t ≠ .unknown)
    (notTop : ¬ t.isTop) (h : P.subtype (n + 1) (.interface d as) t = .ok true) :
    P.subtypeByUnion n (.interface d as) t = .ok true := by
  rcases rules_of_subtype notNull h with rfl | same | isTop | isObject | h
  · cases plain
  · exact absurd same known
  · exact absurd isTop notTop
  · cases t with
    | interface => cases plain
    | _ => cases isObject
  · exact h

theorem below_of_superArgs (h : P.superArgs? ⟨d, as⟩ e = .ok (some bs)) :
    P.Below (.interface d as) (.interface e bs) := by
  refine ⟨1, subtype_of_atomic (isAtomic_interface notNull) (by simp) (fun isObject => ?_) ?_⟩
  · obtain rfl : e = .object := by simpa [Ty.isObject] using isObject
    simp [isNonNull, h]
  · rw [subtypeByUnion, subtypeByShape, h]
    · exact pairwise_eq_true.2 ⟨rfl, forall_mem_zip_self.2 fun _ _ => subtype_of_easy (.inl rfl)⟩
    all_goals simp

theorem WellFormed.below_interface_iff (wf : P.WellFormed) (notObject : d ≠ .object)
    (ha : P.InRange (.interface d as)) (hb : P.InRange (.interface d bs)) :
    P.Below (.interface d as) (.interface d bs) ↔
      as.length = bs.length ∧ ∀ x ∈ as.zip bs, P.Below x.1 x.2 := by
  have self : P.superArgs? ⟨d, as⟩ d = .ok (some as) := wf.superArgs_self (i := ⟨d, as⟩) ha
  constructor
  · rintro ⟨n, h⟩
    rcases rules_of_subtype notNull h with same | same | isTop | isObject | h
    · cases same
      exact ⟨rfl, forall_mem_zip_self.2 fun _ _ => below_refl _⟩
    · cases same
    · cases isTop
    · exact absurd (by simpa [Ty.isObject] using isObject) notObject
    · rw [subtypeByUnion, subtypeByShape, self, ok_bind] at h
      · obtain ⟨hlength, each⟩ := pairwise_eq_true.1 h
        exact ⟨hlength, fun x hx => below_of_subtype (each x hx)⟩
      all_goals simp
  · rintro ⟨hlength, each⟩
    obtain ⟨n, checks⟩ := (wf.eventually_forall_zip (Ty.every_interface.1 ha).2
      (Ty.every_interface.1 hb).2 each).exists
    refine ⟨n, subtype_of_atomic (isAtomic_interface notNull) (by simp) (fun isObject => ?_) ?_⟩
    · exact absurd (by simpa [Ty.isObject] using isObject) notObject
    · rw [subtypeByUnion, subtypeByShape, self]
      · exact pairwise_eq_true.2 ⟨hlength, checks⟩
      all_goals simp

theorem not_below_param {p : ParamId} : ¬ P.Below (.interface d as) (.param p) := by
  rintro ⟨n, h⟩
  have h := union_of_subtype notNull rfl (by simp) (by simp [Ty.isTop]) h
  simp [subtypeByUnion, subtypeByShape] at h

theorem below_nullable_iff (notTop : ¬ (Ty.nullable t).isTop) :
    P.Below (.interface d as) (.nullable t) ↔ P.Below (.interface d as) t := by
  constructor
  · rintro ⟨n, h⟩
    have h := union_of_subtype notNull rfl (by simp) notTop h
    rw [union_nullable (isAtomic_interface notNull)] at h
    rcases choice_eq_ok.1 h with h | ⟨_, h⟩
    · exact below_of_subtype h
    · simp [subtypeByShape] at h
  · rintro ⟨limit, h⟩
    refine ⟨limit + 1, subtype_of_atomic (isAtomic_interface notNull) (by simp) ?_ ?_⟩
    · simp [Ty.isObject]
    · rw [union_nullable (isAtomic_interface notNull)]
      exact choice_eq_ok.2 (.inl h)

end Interface

theorem WellFormed.below_record_iff (wf : P.WellFormed) (ha : P.InRange (.record as))
    (hb : P.InRange (.record bs)) : P.Below (.record as) (.record bs) ↔
      as.length = bs.length ∧ ∀ x ∈ as.zip bs, P.Below x.1 x.2 := by
  constructor
  · rintro ⟨n, h⟩
    rw [isSubtype, subtype_succ] at h
    split at h
    · next easy =>
      obtain rfl : as = bs := by simpa using easy
      exact ⟨rfl, forall_mem_zip_self.2 fun _ _ => below_refl _⟩
    have shape : P.subtypeByShape (P.subtype n) (.record as) (.record bs) = .ok true := h
    obtain ⟨hlength, each⟩ := pairwise_eq_true.1 shape
    exact ⟨hlength, fun x hx => below_of_subtype (each x hx)⟩
  · rintro ⟨hlength, each⟩
    obtain ⟨n, checks⟩ := (wf.eventually_forall_zip (Ty.every_record.1 ha).2
      (Ty.every_record.1 hb).2 each).exists
    exact ⟨n, subtype_of_atomic rfl (by simp) nofun (pairwise_eq_true.2 ⟨hlength, checks⟩)⟩

theorem WellFormed.nullable_below_nullable_iff (wf : P.WellFormed) (ha : P.InRange a) :
    P.Below (.nullable a) (.nullable b) ↔ P.Below a (.nullable b) := by
  constructor
  · rintro ⟨n, h⟩
    cases foundBy_of_subtype h with
    | easy easy =>
      rcases easy with same | easy | easy | isTop | easy
      · obtain rfl : a = b := by simpa using same
        exact wf.below_of_strips (.nullable .refl) (Ty.every_nullable.2 ⟨rfl, ha⟩)
      · cases easy
      · cases easy
      · exact below_of_isTop isTop
      · cases easy
    | null isNull => cases isNull
    | object _ isObject => cases isObject
    | union _ _ _ h => exact below_of_subtype (guard_eq_ok.1 h).1
  · rintro ⟨n, h⟩
    exact ⟨n + 1, subtype_of_union (by simp) nofun nofun (guard_eq_ok.2 ⟨h, rfl⟩)⟩

end MemberAccess.Program
