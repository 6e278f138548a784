import MemberAccess.Proofs.Typing.Closed

/-!
Completeness of the subtype check. It finds every derivation that is at most half as high as its
limit, if the program answers for all that the derivation relies on.
-/
namespace MemberAccess.Program

variable {P Q : Program} {φ : Ty → Prop} {n m : Nat} {a b t u : Ty} {p : ParamId} {as bs : List Ty}

theorem not_isObject_of_isTop (h : t.isTop) : ¬ t.isObject := by
  cases t <;> simp_all [Ty.isTop, Ty.isObject]

/-- Whether the bounds and the supertypes of one program are those of another one as well, as far
    as types with a property are concerned. -/
structure Covers (P Q : Program) (φ : Ty → Prop) : Prop extends P.Closed φ where
  bound : ∀ p bound, Q.boundOf p = .ok bound → P.boundOf p = .ok bound
  supertype : ∀ i j : Instance, i.type.Every φ → Q.Reaches i j →
    P.superArgs? i j.decl = .ok (some j.args)

theorem Coherent.covers (coherent : P.Coherent) : P.Covers P (P.hasHead ·) where
  toClosed := coherent.closed
  bound _ _ h := h
  supertype i j valid reaches := by
    obtain ⟨args, hargs, all⟩ := coherent.superArgs_eq_ok valid j.decl
    rw [hargs, (all j.args).2 reaches]

section Covers

variable (covers : P.Covers Q φ)

include covers

theorem Covers.every_boundOf (hp : φ (.param p)) (h : P.boundOf p = .ok t) : t.Every φ := by
  obtain ⟨bound, hbound, every⟩ := covers.bounds p hp
  rw [h] at hbound
  cases hbound
  exact every

theorem Covers.isNonNull_of_derives (ha : a.Every φ) (h : Q.Derives n a b) (hb : b.isObject)
    (hnm : n ≤ m) : P.isNonNull m a = .ok true := by
  have step {n m : Nat} (hnm : n + 1 ≤ m) : ∃ k, m = k + 1 ∧ n ≤ k := ⟨m - 1, by omega, by omega⟩
  induction h generalizing m with
  | @refl _ t =>
    obtain ⟨k, rfl, _⟩ := step hnm
    cases t with
    | interface d as =>
      obtain rfl : d = .object := by simpa [Ty.isObject] using hb
      simp [isNonNull, covers.supertype ⟨.object, as⟩ _ ha .refl]
    | _ => cases hb
  | unknown_left | never | func_object | record_object =>
    obtain ⟨k, rfl, _⟩ := step hnm
    rfl
  | futureOr_left _ _ _ ih =>
    obtain ⟨k, rfl, hk⟩ := step hnm
    exact ih (Ty.every_futureOr.1 ha).2 hb hk
  | param _ hbound _ ih =>
    obtain ⟨k, rfl, hk⟩ := step hnm
    have hbound := covers.bound _ _ hbound
    simp [isNonNull, hbound, ih (covers.every_boundOf ha.self hbound) hb hk]
  | promoted_param _ _ ih =>
    obtain ⟨k, rfl, hk⟩ := step hnm
    obtain ⟨answer, hanswer⟩ := covers.isNonNull_answered (n := k) (Ty.every_promoted.1 ha).2
    cases answer <;> simp [isNonNull, hanswer, ih (covers.every_param ha) hb hk]
  | promoted_bound _ _ ih =>
    obtain ⟨k, rfl, hk⟩ := step hnm
    simp [isNonNull, ih (Ty.every_promoted.1 ha).2 hb hk]
  | @interface d as e xs bs _ _ reaches =>
    obtain ⟨k, rfl, _⟩ := step hnm
    obtain rfl : e = .object := by simpa [Ty.isObject] using hb
    simp [isNonNull, covers.supertype ⟨d, as⟩ _ ha reaches]
  | null _ admits | nullable_left _ admits =>
    exact absurd hb (not_isObject_of_acceptsNull (acceptsNull_of_admitsNull admits))
  | top isTop => exact absurd hb (not_isObject_of_isTop isTop)
  | _ => cases hb

end Covers

theorem subtype_of_easy (h : a = b ∨ a = .unknown ∨ b = .unknown ∨ b.isTop ∨ a = .never) :
    P.subtype (n + 1) a b = .ok true := by
  rw [subtype_succ]
  split
  · rfl
  split
  · rfl
  · tauto

theorem subtype_of_null (isNull : a.isNull) (admits : b.admitsNull n) :
    P.subtype (n + 1) a b = .ok true := by
  have above := ne_never_of_acceptsNull (acceptsNull_of_admitsNull admits)
  rw [subtype_succ]
  cases a <;> simp_all [Ty.isNull]

theorem subtype_of_object (notNull : ¬ a.isNull) (isObject : b.isObject)
    (nonNull : P.isNonNull n a = .ok true) : P.subtype (n + 1) a b = .ok true := by
  rw [subtype_succ]
  split
  · rfl
  split
  · rfl
  split
  · next extreme =>
    rcases extreme with rfl | rfl | rfl
    · cases n <;> simp [isNonNull] at nonNull
    · cases n <;> simp [isNonNull] at nonNull
    · cases isObject
  · exact nonNull

theorem subtype_of_union (extreme : ¬ (a = .dynamic ∨ a = .void ∨ b = .never))
    (notNull : ¬ a.isNull) (object : b.isObject → P.isNonNull n a = .ok true)
    (h : P.subtypeByUnion n a b = .ok true) : P.subtype (n + 1) a b = .ok true := by
  rw [subtype_succ]
  split
  · rfl
  split
  · rfl
  split
  · next isObject => exact object isObject
  · exact h

theorem subtype_of_atomic (atomic : a.isAtomic) (above : b ≠ .never)
    (object : b.isObject → P.isNonNull n a = .ok true)
    (h : P.subtypeByUnion n a b = .ok true) : P.subtype (n + 1) a b = .ok true := by
  refine subtype_of_union ?_ ?_ object h <;> cases a <;> simp_all [Ty.isAtomic, Ty.isNull]

theorem Closed.union_of_shape (closed : P.Closed φ) (ha : a.Every φ) (hb : b.Every φ)
    (atomic : a.isAtomic) (above : b.isAboveBounds)
    (h : P.subtypeByShape (P.subtype n) a b = .ok true) : P.subtypeByUnion n a b = .ok true := by
  unfold subtypeByUnion
  split
  · simp [Ty.isAtomic] at atomic
  · simp [Ty.isAtomic] at atomic
  · obtain ⟨answer, hanswer⟩ := closed.subtype_answered ha (Ty.every_nullable.1 hb).2 (n := n)
    cases answer <;> simp [hanswer, h]
  · have every := (Ty.every_futureOr.1 hb).2
    obtain ⟨first, hfirst⟩ := closed.subtype_answered ha (closed.every_future every) (n := n)
    obtain ⟨second, hsecond⟩ := closed.subtype_answered ha every (n := n)
    cases first <;> cases second <;> simp [hfirst, hsecond, h]
  · simp [Ty.isAboveBounds] at above
  · exact h

theorem union_nullable (atomic : a.isAtomic) : P.subtypeByUnion n a (.nullable u) = (do
    if ← P.subtype n a u then pure true
    else P.subtypeByShape (P.subtype n) a (.nullable u)) := by
  cases a <;> first | rfl | cases atomic

theorem union_futureOr (atomic : a.isAtomic) : P.subtypeByUnion n a (.futureOr u) = (do
    if ← P.subtype n a (.future u) then pure true
    else if ← P.subtype n a u then pure true
    else P.subtypeByShape (P.subtype n) a (.futureOr u)) := by
  cases a <;> first | rfl | cases atomic

theorem union_promoted (atomic : a.isAtomic) : P.subtypeByUnion n a (.promoted p u) = (do
    if ← P.subtype n a (.param p) then P.subtype n a u else pure false) := by
  cases a <;> first | rfl | cases atomic

/-- A derivation is found with a limit of twice its height. -/
theorem Covers.subtype_of_derives (covers : P.Covers Q φ) (ha : a.Every φ) (hb : b.Every φ)
    (h : Q.Derives n a b) (hnm : 2 * n ≤ m) : P.subtype m a b = .ok true := by
  induction n generalizing a b m with
  | zero => cases h
  | succ n ih =>
    obtain ⟨m, rfl⟩ : ∃ k, m = k + 1 := ⟨m - 1, by omega⟩
    have next : 2 * n ≤ m := by omega
    have object (isObject : b.isObject) : P.isNonNull m a = .ok true :=
      covers.isNonNull_of_derives ha h isObject (by omega)
    have shape := covers.union_of_shape (n := m) ha hb
    cases h with
    | refl | unknown_left | unknown_right | top | never => exact subtype_of_easy (by simp [*])
    | null isNull admits => exact subtype_of_null isNull (admitsNull_mono admits (by omega))
    | func_object | record_object => exact subtype_of_object nofun rfl (object rfl)
    | nullable_left inner admits =>
      have accepts := acceptsNull_of_admitsNull admits
      refine subtype_of_union (by simpa using ne_never_of_acceptsNull accepts) (by simp [Ty.isNull])
        (fun h => absurd h (not_isObject_of_acceptsNull accepts)) ?_
      rw [subtypeByUnion, guard_eq_ok]
      exact ⟨ih (Ty.every_nullable.1 ha).2 hb inner next,
        congrArg Except.ok (admitsNull_mono admits (by omega))⟩
    | futureOr_left future inner =>
      have every := (Ty.every_futureOr.1 ha).2
      have above : b ≠ .never := fun hb => by simpa [Ty.future] using future.below_never hb
      refine subtype_of_union (by simpa using above) (by simp [Ty.isNull]) object ?_
      rw [subtypeByUnion, guard_eq_ok]
      exact ⟨ih (covers.every_future every) hb future next, ih every hb inner next⟩
    | nullable_right atomic inner =>
      refine subtype_of_atomic atomic (by simp) object ?_
      rw [union_nullable atomic, choice_eq_ok]
      exact .inl (ih ha (Ty.every_nullable.1 hb).2 inner next)
    | future_right atomic inner =>
      refine subtype_of_atomic atomic (by simp) object ?_
      rw [union_futureOr atomic, choice_eq_ok]
      exact .inl (ih ha (covers.every_future (Ty.every_futureOr.1 hb).2) inner next)
    | futureOr_right atomic inner =>
      have every := (Ty.every_futureOr.1 hb).2
      obtain ⟨answer, hanswer⟩ := covers.subtype_answered ha (covers.every_future every) (n := m)
      refine subtype_of_atomic atomic (by simp) object ?_
      rw [union_futureOr atomic]
      cases answer <;> simp [hanswer, ih ha every inner next]
    | promoted_right atomic param inner =>
      refine subtype_of_atomic atomic (by simp) object ?_
      rw [union_promoted atomic, guard_eq_ok]
      exact ⟨ih ha (covers.every_param hb) param next, ih ha (Ty.every_promoted.1 hb).2 inner next⟩
    | param above hbound inner =>
      have hbound := covers.bound _ _ hbound
      refine subtype_of_atomic rfl (ne_never_of_isAboveBounds above) object (shape rfl above ?_)
      simp [subtypeByShape, hbound, ih (covers.every_boundOf ha.self hbound) hb inner next]
    | promoted_param above inner =>
      refine subtype_of_atomic rfl (ne_never_of_isAboveBounds above) object (shape rfl above ?_)
      rw [subtypeByShape, choice_eq_ok]
      exact .inl (ih (covers.every_param ha) hb inner next)
    | promoted_bound above inner =>
      obtain ⟨answer, hanswer⟩ := covers.subtype_answered (covers.every_param ha) hb (n := m)
      refine subtype_of_atomic rfl (ne_never_of_isAboveBounds above) object (shape rfl above ?_)
      have inner := ih (Ty.every_promoted.1 ha).2 hb inner next
      cases answer <;> simp [subtypeByShape, hanswer, inner]
    | @interface d as e xs bs _ notNull reaches hlength inner =>
      have atomic : (Ty.interface d as).isAtomic := by simpa [Ty.isAtomic, Ty.isNull] using notNull
      have hargs : P.superArgs? ⟨d, as⟩ e = .ok (some xs) := covers.supertype ⟨d, as⟩ _ ha reaches
      obtain ⟨found, hfound, every⟩ := covers.superArgs (e := e) ha
      rw [hargs] at hfound
      cases hfound
      refine subtype_of_atomic atomic (by simp) object (shape atomic rfl ?_)
      rw [subtypeByShape, hargs]
      refine pairwise_eq_true.2 ⟨hlength, ?_⟩
      intro x hx
      obtain ⟨left, right⟩ := List.of_mem_zip hx
      exact ih (every xs rfl _ left) ((Ty.every_interface.1 hb).2 _ right) (inner x hx) next
    | func hlength params inner =>
      obtain ⟨_, paramsA, resultA⟩ := Ty.every_func.1 ha
      obtain ⟨_, paramsB, resultB⟩ := Ty.every_func.1 hb
      refine subtype_of_atomic rfl (by simp) object (shape rfl rfl ?_)
      rw [subtypeByShape, guard_eq_ok]
      refine ⟨pairwise_eq_true.2 ⟨hlength, fun x hx => ?_⟩, ih resultA resultB inner next⟩
      obtain ⟨left, right⟩ := List.of_mem_zip hx
      exact ih (paramsB _ right) (paramsA _ left) (params x hx) next
    | record hlength inner =>
      refine subtype_of_atomic rfl (by simp) object (shape rfl rfl ?_)
      refine pairwise_eq_true.2 ⟨hlength, ?_⟩
      intro x hx
      obtain ⟨left, right⟩ := List.of_mem_zip hx
      exact ih ((Ty.every_record.1 ha).2 _ left) ((Ty.every_record.1 hb).2 _ right) (inner x hx)
        next

theorem Coherent.subtype_of_derives (coherent : P.Coherent) (ha : P.Valid a) (hb : P.Valid b)
    (h : P.Derives n a b) (hnm : 2 * n ≤ m) : P.subtype m a b = .ok true :=
  coherent.covers.subtype_of_derives ha hb h hnm

end MemberAccess.Program
